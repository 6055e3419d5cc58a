import Listing.Model
import Mathlib

/-!
# Fetching runs one statement

A database answers a statement with its values from a state that it may change (`Database`); a
session also keeps the calls that it was given. `Fetched` says what a fetch may do in a session: a
request that cannot be prepared leaves it alone, any other makes one call, for what was prepared,
and the answer decides the rest. A page shows the rows of an answer without their first count
column and nothing else changed (`Page.Shows`).

`Model.fetch_run`: any sequence of fetches is a sequence of such steps, whatever the database
answers.
-/

namespace Listing

open List (Forall₂)

/-! ## The first column of a name -/

namespace Row

variable {row : Row} {name : String} {front back : List (String × Value)} {value : Value}

/-- Whether a row has no column of a name. -/
def Lacks (row : Row) (name : String) : Prop := ∀ c ∈ row.columns, c.1 ≠ name

/-- A column of a name with no other of that name in front of it. -/
structure First (row : Row) (name : String) (front : List (String × Value)) (value : Value)
    (back : List (String × Value)) : Prop where
  columns : row.columns = front ++ (name, value) :: back
  fresh : ∀ c ∈ front, c.1 ≠ name

theorem lacks_or_first (row : Row) (name : String) :
    row.Lacks name ∨ ∃ front value back, row.First name front value back := by
  obtain ⟨columns⟩ := row
  induction columns with
  | nil => exact .inl fun c hc => by cases hc
  | cons c columns ih =>
    obtain ⟨key, value⟩ := c
    by_cases hkey : key = name
    · subst hkey
      exact .inr ⟨[], value, columns, rfl, fun c hc => by cases hc⟩
    rcases ih with hlacks | ⟨front, found, back, hcolumns, hfresh⟩
    · exact .inl (List.forall_mem_cons.2 ⟨hkey, hlacks⟩)
    · exact .inr ⟨(key, value) :: front, found, back, congrArg ((key, value) :: ·) hcolumns,
        List.forall_mem_cons.2 ⟨hkey, hfresh⟩⟩

theorem get?_of_lacks (h : row.Lacks name) : row.get? name = none := by
  have hfind : row.columns.find? (·.1 == name) = none := by
    simpa [Lacks] using h
  rw [get?, hfind]
  rfl

theorem First.get? (h : row.First name front value back) : row.get? name = some value := by
  have hfind : row.columns.find? (·.1 == name) = some (name, value) := by
    rw [h.columns, List.find?_append, List.find?_eq_none.2 (by simpa using h.fresh)]
    simp
  rw [Row.get?, hfind]
  rfl

theorem remove_of_lacks (h : row.Lacks name) : row.remove name = row := by
  have herase : row.columns.eraseP (·.1 == name) = row.columns :=
    List.eraseP_of_forall_not (by simpa [Lacks] using h)
  rw [remove, herase]

theorem First.remove (h : row.First name front value back) :
    row.remove name = ⟨front ++ back⟩ := by
  have hfront : ∀ c ∈ front, ¬(c.1 == name) = true := by
    simpa using h.fresh
  rw [Row.remove, h.columns, List.eraseP_append_right _ hfront, List.eraseP_cons_of_pos (by simp)]

/-- Rows of which the second is the first without its first column of a name. -/
inductive Stripped (name : String) : Row → Row → Prop
  | lacks {row : Row} (h : row.Lacks name) : Stripped name row row
  | first {row : Row} {front back : List (String × Value)} {value : Value}
    (h : row.First name front value back) : Stripped name row ⟨front ++ back⟩

/-- The number of rows that the first row of a result tells in a column. -/
inductive Counts (name : String) : List Row → Nat → Prop
  | empty : Counts name [] 0
  | lacks {row : Row} {rows : List Row} (h : row.Lacks name) : Counts name (row :: rows) 0
  | first {row : Row} {rows : List Row} {front back : List (String × Value)} {value : Value}
    (h : row.First name front value back) : Counts name (row :: rows) value.asCount

theorem stripped_remove (name : String) (row : Row) : Stripped name row (row.remove name) := by
  rcases row.lacks_or_first name with h | ⟨front, value, back, h⟩
  · rw [remove_of_lacks h]
    exact .lacks h
  · rw [h.remove]
    exact .first h

end Row

/-! ## Pages -/

/-- A page for an answer to what was prepared. -/
structure Page.Shows (page : Page) (prepared : Prepared) (answer : List Row) : Prop where
  /-- The rows of the answer in their order, each without its first count column. -/
  rows : Forall₂ (Row.Stripped prepared.query.countAlias) answer page.rows
  info : ∃ total, Row.Counts prepared.query.countAlias answer total ∧
    page.info = PageInfo.of prepared.pagination total
  filters : page.filters = prepared.filters
  sorts : page.sorts = prepared.sorts

theorem Prepared.shows_page (prepared : Prepared) (rows : List Row) :
    (prepared.page rows).Shows prepared rows := by
  refine ⟨?_, ⟨_, ?_, rfl⟩, rfl, rfl⟩
  · exact List.forall₂_map_right_iff.2
      (List.forall₂_same.2 fun row _ => Row.stripped_remove _ row)
  · cases rows with
    | nil => exact .empty
    | cons row rows =>
      rw [List.head?_cons, Option.bind_some]
      rcases row.lacks_or_first prepared.query.countAlias with h | ⟨front, value, back, h⟩
      · rw [Row.get?_of_lacks h]
        exact .lacks h
      · rw [h.get?]
        exact .first h

/-! ## Databases and their calls -/

/-- How a database answers a statement with its values in a state, with rows or a message, and the
state that it is in then. -/
abbrev Database (σ : Type) := String → List Value → σ → Except String (List Row) × σ

/-- A statement and its values, as a database is given them. -/
structure Call where
  sql : String
  params : List Value

/-- The state of a database and the calls that it was given, in order. -/
structure Session (σ : Type) where
  state : σ
  calls : List Call

/-- The call for what was prepared. -/
def Prepared.call (prepared : Prepared) : Call := ⟨prepared.query.sql, prepared.query.params⟩

variable {σ : Type}

/-- Asks a database and takes down the call. -/
def Database.execute (db : Database σ) (sql : String) (params : List Value) :
    StateM (Session σ) (Except String (List Row)) := do
  let session ← get
  let (answer, state) := db sql params session.state
  set (⟨state, session.calls ++ [⟨sql, params⟩]⟩ : Session σ)
  return answer

/-- The ways in which a fetch may end, and the session that it leaves. -/
inductive Fetched (model : Model) (db : Database σ) (request : Request) (before : Session σ) :
    Except Error Page → Session σ → Prop
  /-- The request cannot be prepared: the database is not called. -/
  | refused {e : Error} (hprepare : model.prepare request = .error e) :
    Fetched model db request before (.error e) before
  /-- The database fails: its message is told. -/
  | failed {prepared : Prepared} {cause : String} {state : σ}
    (hprepare : model.prepare request = .ok prepared)
    (hanswer : db prepared.query.sql prepared.query.params before.state = (.error cause, state)) :
    Fetched model db request before (.error (.execution cause))
      ⟨state, before.calls ++ [prepared.call]⟩
  /-- The database answers with rows. -/
  | served {prepared : Prepared} {rows : List Row} {page : Page} {state : σ}
    (hprepare : model.prepare request = .ok prepared)
    (hanswer : db prepared.query.sql prepared.query.params before.state = (.ok rows, state))
    (hpage : page.Shows prepared rows) :
    Fetched model db request before (.ok page) ⟨state, before.calls ++ [prepared.call]⟩

/-- Fetches one after the other, with their outcomes. -/
inductive Fetches (model : Model) (db : Database σ) :
    List Request → Session σ → List (Except Error Page) → Session σ → Prop
  | nil (session : Session σ) : Fetches model db [] session [] session
  | cons {request : Request} {requests : List Request} {before between after : Session σ}
    {outcome : Except Error Page} {outcomes : List (Except Error Page)}
    (head : Fetched model db request before outcome between)
    (tail : Fetches model db requests between outcomes after) :
    Fetches model db (request :: requests) before (outcome :: outcomes) after

/-- A fetch calls the database once if the request can be prepared, and else not at all. -/
theorem Fetched.calls {model : Model} {db : Database σ} {request : Request}
    {before after : Session σ} {outcome : Except Error Page}
    (h : Fetched model db request before outcome after) :
    after.calls = before.calls ++ ((model.prepare request).toOption.map Prepared.call).toList := by
  cases h with
  | refused hprepare => simp [hprepare, Except.toOption]
  | failed hprepare => simp [hprepare, Except.toOption]
  | served hprepare => simp [hprepare, Except.toOption]

/-- So the calls of a sequence of fetches are those of the requests that can be prepared. -/
theorem Fetches.calls {model : Model} {db : Database σ} {requests : List Request}
    {before after : Session σ} {outcomes : List (Except Error Page)}
    (h : Fetches model db requests before outcomes after) :
    after.calls = before.calls ++
      requests.filterMap fun request => (model.prepare request).toOption.map Prepared.call := by
  induction h with
  | nil => simp
  | @cons request requests before between after outcome outcomes head tail ih =>
    rw [ih, head.calls, List.filterMap_cons]
    cases (model.prepare request).toOption.map Prepared.call <;> simp

namespace Model

/-- One fetch. -/
theorem fetched_fetch (model : Model) (db : Database σ) (request : Request)
    (before : Session σ) :
    Fetched model db request before ((model.fetch db.execute request).run before).1
      ((model.fetch db.execute request).run before).2 := by
  unfold fetch
  cases hprepare : model.prepare request with
  | error e => exact .refused hprepare
  | ok prepared =>
    rcases hanswer : db prepared.query.sql prepared.query.params before.state with
      ⟨answer, state⟩
    have hrun : (db.execute prepared.query.sql prepared.query.params).run before =
        (answer, ⟨state, before.calls ++ [prepared.call]⟩) := by
      simp only [Database.execute, StateT.run_bind, StateT.run_get, pure_bind, hanswer]
      rfl
    dsimp only
    rw [StateT.run_bind, hrun]
    cases answer with
    | error cause => exact .failed hprepare hanswer
    | ok rows => exact .served hprepare hanswer (prepared.shows_page rows)

/-- **A fetch is what was prepared and one call of the database**, over any sequence of fetches and
for any database. -/
theorem fetch_run (model : Model) (db : Database σ) (requests : List Request)
    (before : Session σ) :
    ∃ outcomes after, (requests.mapM (model.fetch db.execute)).run before = (outcomes, after) ∧
      Fetches model db requests before outcomes after ∧
      after.calls = before.calls ++ requests.filterMap fun request =>
        (model.prepare request).toOption.map Prepared.call := by
  induction requests generalizing before with
  | nil => exact ⟨[], before, rfl, .nil before, by simp⟩
  | cons request requests ih =>
    rcases hhead : (model.fetch db.execute request).run before with ⟨outcome, between⟩
    have hfetched := model.fetched_fetch db request before
    rw [hhead] at hfetched
    obtain ⟨outcomes, after, hrun, htail, -⟩ := ih between
    have hfetches : Fetches model db (request :: requests) before (outcome :: outcomes) after :=
      .cons hfetched htail
    refine ⟨outcome :: outcomes, after, ?_, hfetches, hfetches.calls⟩
    rw [List.mapM_cons, StateT.run_bind, hhead]
    change (requests.mapM (model.fetch db.execute) >>= fun os => pure (outcome :: os)).run between =
      (outcome :: outcomes, after)
    rw [StateT.run_bind, hrun]
    rfl

/-- The first of two count columns tells the total and is removed; a row without one stays as it is,
a request that cannot be prepared makes no call, and no row counts as none. -/
theorem fetch_run_ragged :
    let model : Model := ⟨.sqlite, .default, "SELECT a FROM t", []⟩
    let db : Database (List (Except String (List Row))) := fun _ _ answers =>
      (answers.headD (.error "closed"), answers.tail)
    let requests : List Request := [{}, { filters := [("a:between", "1")] }, {}, {}]
    let before : Session (List (Except String (List Row))) :=
      ⟨[.ok [⟨[("a", .int 1), ("_zf_count", .text "7"), ("_zf_count", .int 9)]⟩,
        ⟨[("a", .int 2)]⟩], .ok []], []⟩
    ∃ outcomes after, Fetches model db requests before outcomes after ∧
      after.calls.map (·.sql) =
        List.replicate 3 "SELECT count(*) OVER() AS _zf_count, a FROM t LIMIT 25 OFFSET 0" ∧
      outcomes.map (·.toOption.map fun page =>
          (page.info.totalCount, page.rows.map (·.columns.map (·.1)))) =
        [some (7, [["a", "_zf_count"], ["a"]]), none, some (0, []), none] := by
  intro model db requests before
  obtain ⟨outcomes, after, hrun, hfetches, -⟩ := fetch_run model db requests before
  have hcalls : ((requests.mapM (model.fetch db.execute)).run before).2.calls.map (·.sql) =
      List.replicate 3 "SELECT count(*) OVER() AS _zf_count, a FROM t LIMIT 25 OFFSET 0" := by
    cbv
  have houtcomes : ((requests.mapM (model.fetch db.execute)).run before).1.map
      (·.toOption.map fun page => (page.info.totalCount, page.rows.map (·.columns.map (·.1)))) =
        [some (7, [["a", "_zf_count"], ["a"]]), none, some (0, []), none] := by
    cbv
  rw [hrun] at hcalls houtcomes
  exact ⟨outcomes, after, hfetches, hcalls, houtcomes⟩

end Model

end Listing
