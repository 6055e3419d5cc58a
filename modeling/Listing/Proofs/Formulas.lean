import Listing.Proofs.ConditionReading

/-!
# Evaluating a predicate

How the truth of a predicate depends on that of its conditions, told from its tokens alone.
Parentheses come first, AND binds tighter than OR, and a range is one condition with the AND in it.
A `FormulaReader` takes one token after the other and keeps the formulas that are not complete yet,
one `Frame` for each parenthesis that is open. A predicate may start with another one in parentheses
that is not looked into (`readPredicate`).

What is put together by one connective is read as such whatever stands in front of it
(`Formula.Reads.join`, `Formula.Reads.parens`), so the tokens of a clause are read as its formula
(`Reading.reads_clause`), which holds as the clause does (`Reading.holds_clauseFormula`).
-/

namespace Listing

open Text List

/-! ## Formulas -/

/-- A combination of conditions. -/
inductive Formula (α : Type) where
  | leaf (a : α)
  | and (f g : Formula α)
  | or (f g : Formula α)
deriving DecidableEq, Repr

namespace Formula

variable {α : Type}

/-- The conditions of a formula from left to right. -/
def leaves : Formula α → List α
  | leaf a => [a]
  | and f g | or f g => f.leaves ++ g.leaves

/-- Whether a formula holds, given from left to right which of its conditions do. -/
def holds : Formula α → List Bool → Bool
  | leaf _, truth => truth.head?.any id
  | and f g, truth =>
    f.holds (truth.take f.leaves.length) && g.holds (truth.drop f.leaves.length)
  | or f g, truth =>
    f.holds (truth.take f.leaves.length) || g.holds (truth.drop f.leaves.length)

end Formula

/-- Whether things joined by a connective hold, given which of them do. -/
def Connective.holds : Connective → List Bool → Bool
  | and, truth => truth.all id
  | or, truth => truth.any id

namespace Connective

variable {α : Type}

def formula : Connective → Formula α → Formula α → Formula α
  | and => .and
  | or => .or

/-- The formula of several ones joined by a connective. -/
def join (c : Connective) (f : Formula α) (fs : List (Formula α)) : Formula α :=
  fs.foldl c.formula f

theorem leaves_formula (c : Connective) (f g : Formula α) :
    (c.formula f g).leaves = f.leaves ++ g.leaves := by
  cases c <;> rfl

theorem leaves_join (c : Connective) (f : Formula α) (fs : List (Formula α)) :
    (c.join f fs).leaves = (f :: fs).flatMap Formula.leaves := by
  induction fs generalizing f with
  | nil => simp [join]
  | cons g fs ih =>
    rw [join, List.foldl_cons, ← join, ih, List.flatMap_cons, leaves_formula]
    simp

theorem holds_formula (c : Connective) {f : Formula α} {ts : List Bool}
    (h : ts.length = f.leaves.length) (g : Formula α) (us : List Bool) :
    (c.formula f g).holds (ts ++ us) = c.holds [f.holds ts, g.holds us] := by
  cases c with
  | and => simp [formula, Formula.holds, holds, ← h]
  | or => simp [formula, Formula.holds, holds, ← h]

theorem holds_cons_cons (c : Connective) (a b : Bool) (truth : List Bool) :
    c.holds (c.holds [a, b] :: truth) = c.holds (a :: b :: truth) := by
  cases c with
  | and => simp [holds, Bool.and_assoc]
  | or => simp [holds, Bool.or_assoc]

/-- Formulas joined by a connective hold as the connective says. -/
theorem holds_join (c : Connective) {f : Formula α} {fs : List (Formula α)} {ts : List Bool}
    {tss : List (List Bool)} (h : ts.length = f.leaves.length)
    (hs : Forall₂ (fun g us => us.length = g.leaves.length) fs tss) :
    (c.join f fs).holds (ts ++ tss.flatten) =
      c.holds (f.holds ts :: List.zipWith Formula.holds fs tss) := by
  induction hs generalizing f ts with
  | nil => cases c <;> simp [join, holds]
  | @cons g us fs tss hg _ ih =>
    have hlength : (ts ++ us).length = (c.formula f g).leaves.length := by
      rw [leaves_formula, List.length_append, List.length_append, h, hg]
    have hrest := ih hlength
    rw [List.flatten_cons, ← List.append_assoc, join, List.foldl_cons, ← join, hrest,
      holds_formula c h, holds_cons_cons, List.zipWith_cons_cons]

end Connective

/-! ## The reader -/

/-- The operators of a predicate. All other words belong to conditions. -/
inductive CodeToken.Operator where
  | and
  | or
  | between
deriving DecidableEq, Repr

/-- The operator that a word spells, in any case of its letters. -/
def CodeToken.operator? (w : List UInt8) : Option CodeToken.Operator :=
  if sameIgnoringCase w (bytes "AND") then some .and
  else if sameIgnoringCase w (bytes "OR") then some .or
  else if sameIgnoringCase w (bytes "BETWEEN") then some .between
  else none

/-- What stands in front of an operand between two parentheses: alternatives, and behind them what
the operand is joined to by AND. -/
structure Frame where
  alternatives : Option (Formula (List CodeToken)) := none
  conjunction : Option (Formula (List CodeToken)) := none
deriving DecidableEq, Repr

namespace Frame

/-- The conjunction with an operand. -/
def conjoin (fr : Frame) (f : Formula (List CodeToken)) : Formula (List CodeToken) :=
  fr.conjunction.elim f (·.and f)

/-- All that stands between the parentheses if an operand is the last. -/
def close (fr : Frame) (f : Formula (List CodeToken)) : Formula (List CodeToken) :=
  fr.alternatives.elim (fr.conjoin f) (·.or (fr.conjoin f))

end Frame

/-- The operand that is being read. -/
inductive Operand where
  | missing
  /-- Some tokens of a condition, and whether it is a range that still lacks its AND. -/
  | condition (tokens : List CodeToken) (lacking : Bool)
  | complete (f : Formula (List CodeToken))
deriving DecidableEq, Repr

namespace Operand

/-- The formula of an operand that may end here. -/
def formula? : Operand → Option (Formula (List CodeToken))
  | condition tokens false => some (.leaf tokens)
  | complete f => some f
  | missing | condition _ true => none

/-- The operand with one more token of a condition. -/
def extend? (t : CodeToken) : Operand → Option Operand
  | missing => some (condition [t] false)
  | condition tokens lacking => some (condition (tokens ++ [t]) lacking)
  | complete _ => none

/-- The operand as a range that lacks its AND. -/
def between? (t : CodeToken) : Operand → Option Operand
  | condition tokens false => some (condition (tokens ++ [t]) true)
  | _ => none

end Operand

/-- Where the reading of a predicate has got to. -/
structure FormulaReader where
  frame : Frame := {}
  /-- The frames of the parentheses around, the innermost first. -/
  outer : List Frame := []
  operand : Operand := .missing
deriving DecidableEq, Repr

namespace FormulaReader

/-- Passes an AND: that of a range, or one that joins two operands. -/
def passAnd (s : FormulaReader) (t : CodeToken) : Option FormulaReader :=
  match s.operand with
  | .condition tokens true => some { s with operand := .condition (tokens ++ [t]) false }
  | operand => operand.formula?.map fun f =>
      { s with frame := { s.frame with conjunction := some (s.frame.conjoin f) },
               operand := .missing }

def step (s : FormulaReader) (t : CodeToken) : Option FormulaReader :=
  match t with
  | .opening =>
    if s.operand = .missing then some { frame := {}, outer := s.frame :: s.outer } else none
  | .closing =>
    match s.outer with
    | [] => none
    | fr :: outer => s.operand.formula?.map fun f => ⟨fr, outer, .complete (s.frame.close f)⟩
  | .word w =>
    match CodeToken.operator? w with
    | some .and => s.passAnd t
    | some .or => s.operand.formula?.map fun f =>
        { s with frame := { alternatives := some (s.frame.close f) }, operand := .missing }
    | some .between => (s.operand.between? t).map fun operand => { s with operand }
    | none => (s.operand.extend? t).map fun operand => { s with operand }
  | .semicolon => none
  | t => (s.operand.extend? t).map fun operand => { s with operand }

def run (s : FormulaReader) : List CodeToken → Option FormulaReader
  | [] => some s
  | t :: ts => (s.step t).bind fun s' => s'.run ts

/-- The formula that was read, if all parentheses are closed. -/
def formula? (s : FormulaReader) : Option (Formula (List CodeToken)) :=
  if s.outer = [] then s.operand.formula?.map s.frame.close else none

theorem run_append (s : FormulaReader) (ts us : List CodeToken) :
    s.run (ts ++ us) = (s.run ts).bind fun s' => s'.run us := by
  induction ts generalizing s with
  | nil => rfl
  | cons t ts ih =>
    rw [List.cons_append, run, run]
    cases s.step t with
    | none => rfl
    | some s' => exact ih s'

theorem run_singleton (s : FormulaReader) (t : CodeToken) : s.run [t] = s.step t := by
  rw [run]
  cases s.step t <;> rfl

end FormulaReader

/-- The formula of some tokens. -/
def readFormula (ts : List CodeToken) : Option (Formula (List CodeToken)) :=
  (({} : FormulaReader).run ts).bind FormulaReader.formula?

/-- The tokens up to the parenthesis that closes the one in front of them, and those behind it. -/
def splitGroup : Nat → List CodeToken → Option (List CodeToken × List CodeToken)
  | _, [] => none
  | 0, .closing :: ts => some ([], ts)
  | n + 1, .closing :: ts => (splitGroup n ts).map fun (inside, rest) => (.closing :: inside, rest)
  | n, .opening :: ts =>
    (splitGroup (n + 1) ts).map fun (inside, rest) => (.opening :: inside, rest)
  | n, t :: ts => (splitGroup n ts).map fun (inside, rest) => (t :: inside, rest)

/-- The formula of a predicate. Tokens of its own that it has in front, in parentheses, are one
condition of it, whatever they are. -/
def readPredicate (own ts : List CodeToken) : Option (Formula (List CodeToken)) :=
  if own = [] then readFormula ts
  else
    match ts with
    | .opening :: ts =>
      (splitGroup 0 ts).bind fun (inside, rest) =>
        if inside = own then
          (({ operand := .complete (.leaf own) } : FormulaReader).run rest).bind
            FormulaReader.formula?
        else none
    | _ => none

example :
    (readFormula (codeTokens .sqlite (bytes "a = ?1 OR b BETWEEN ?2 AND ?3 AND (c < ?4)"))).map
      (·.holds [false, true, true]) = some true := by
  decide +kernel

/-! ## Operands -/

namespace Formula

/-- Tokens that are read as a formula wherever an operand may stand. -/
def Reads (ts : List CodeToken) (f : Formula (List CodeToken)) : Prop :=
  ∀ fr outer, ∃ operand, operand.formula? = some f ∧
    (⟨fr, outer, .missing⟩ : FormulaReader).run ts = some ⟨fr, outer, operand⟩

end Formula

/-- What is read between two parentheses in front of an operand if one connective joins all. -/
def Connective.frame (c : Connective) (f : Option (Formula (List CodeToken))) : Frame :=
  match c with
  | and => { conjunction := f }
  | or => { alternatives := f }

namespace Connective

theorem close_frame (c : Connective) (f : Option (Formula (List CodeToken)))
    (g : Formula (List CodeToken)) : (c.frame f).close g = f.elim g (c.formula · g) := by
  cases c <;> cases f <;> rfl

theorem frame_none (c : Connective) : c.frame none = {} := by
  cases c <;> rfl

/-- Passing a connective behind a complete operand. -/
theorem step_keyword (c : Connective) (f : Option (Formula (List CodeToken)))
    {operand : Operand} {g : Formula (List CodeToken)} (h : operand.formula? = some g)
    (outer : List Frame) :
    (⟨c.frame f, outer, operand⟩ : FormulaReader).step (.word (bytes c.keyword)) =
      some ⟨c.frame (some ((c.frame f).close g)), outer, .missing⟩ := by
  cases c with
  | and =>
    have hword : CodeToken.operator? (bytes Connective.and.keyword) = some .and := by decide
    have hpass : (⟨Connective.and.frame f, outer, operand⟩ : FormulaReader).passAnd
        (.word (bytes Connective.and.keyword)) =
          some ⟨Connective.and.frame (some ((Connective.and.frame f).close g)), outer,
            .missing⟩ := by
      cases operand with
      | missing => cases h
      | condition tokens lacking =>
        cases lacking with
        | false =>
          obtain rfl := Option.some.inj h
          rfl
        | true => cases h
      | complete f' =>
        obtain rfl := Option.some.inj h
        rfl
    simp only [FormulaReader.step, hword, hpass]
  | or =>
    have hword : CodeToken.operator? (bytes Connective.or.keyword) = some .or := by decide
    simp only [FormulaReader.step, hword, h, Option.map_some]
    rfl

end Connective

namespace Formula

variable {ts : List CodeToken} {f g : Formula (List CodeToken)}

section

variable {α : Type} {tokens : α → List CodeToken} {formula : α → Formula (List CodeToken)} {a : α}
  {as : List α}

/-- Operands with a connective between them are read as the formula it joins them to. -/
theorem Reads.join (c : Connective) (h : ∀ b ∈ a :: as, Reads (tokens b) (formula b))
    (front : Option (Formula (List CodeToken))) (outer : List Frame) :
    ∃ front' operand g, operand.formula? = some g ∧
      (c.frame front').close g = c.join ((c.frame front).close (formula a)) (as.map formula) ∧
      (⟨c.frame front, outer, .missing⟩ : FormulaReader).run
          ([CodeToken.word (bytes c.keyword)].intercalate ((a :: as).map tokens)) =
        some ⟨c.frame front', outer, operand⟩ := by
  induction as generalizing a front with
  | nil =>
    obtain ⟨operand, hformula, hrun⟩ := h a List.mem_cons_self (c.frame front) outer
    refine ⟨front, operand, formula a, hformula, rfl, ?_⟩
    rw [List.map_singleton, List.intercalate_singleton]
    exact hrun
  | cons next as ih =>
    obtain ⟨operand, hformula, hrun⟩ := h a List.mem_cons_self (c.frame front) outer
    obtain ⟨front', operand', g, hformula', hclose, hrun'⟩ :=
      ih (fun b hb => h b (List.mem_cons_of_mem a hb)) (some ((c.frame front).close (formula a)))
    refine ⟨front', operand', g, hformula', ?_, ?_⟩
    · rw [hclose, c.close_frame, Option.elim_some]
      rfl
    · rw [List.map_cons, List.map_cons, List.intercalate_cons_cons, ← List.map_cons,
        List.append_assoc, FormulaReader.run_append, hrun, Option.bind_some,
        FormulaReader.run_append, FormulaReader.run_singleton, c.step_keyword front hformula,
        Option.bind_some, hrun']

/-- In parentheses they are one operand. -/
theorem Reads.parens (c : Connective) (h : ∀ b ∈ a :: as, Reads (tokens b) (formula b)) :
    Reads (.opening :: [CodeToken.word (bytes c.keyword)].intercalate ((a :: as).map tokens) ++
        [.closing]) (c.join (formula a) (as.map formula)) := by
  intro fr outer
  obtain ⟨front, operand, g, hformula, hclose, hrun⟩ := Reads.join c h none (fr :: outer)
  refine ⟨.complete (c.join (formula a) (as.map formula)), rfl, ?_⟩
  rw [c.close_frame none, Option.elim_none] at hclose
  have hopen : (⟨fr, outer, .missing⟩ : FormulaReader).step .opening =
      some ⟨c.frame none, fr :: outer, .missing⟩ := by
    rw [c.frame_none]
    rfl
  have hshut : (⟨c.frame front, fr :: outer, operand⟩ : FormulaReader).step .closing =
      some ⟨fr, outer, .complete (c.join (formula a) (as.map formula))⟩ := by
    simp only [FormulaReader.step, hformula, Option.map_some, hclose]
  rw [List.cons_append, FormulaReader.run, hopen, Option.bind_some, FormulaReader.run_append, hrun,
    Option.bind_some, FormulaReader.run_singleton, hshut]

/-- By themselves they are a whole predicate. -/
theorem Reads.readFormula (c : Connective) (h : ∀ b ∈ a :: as, Reads (tokens b) (formula b)) :
    Listing.readFormula ([CodeToken.word (bytes c.keyword)].intercalate ((a :: as).map tokens)) =
      some (c.join (formula a) (as.map formula)) := by
  obtain ⟨front, operand, g, hformula, hclose, hrun⟩ := Reads.join c h none []
  rw [c.close_frame none, Option.elim_none] at hclose
  rw [c.frame_none] at hrun
  rw [Listing.readFormula, hrun, Option.bind_some, FormulaReader.formula?, if_pos rfl, hformula,
    Option.map_some, hclose]

end

end Formula

/-! ## Conditions -/

/-- A token that belongs to a condition wherever it stands. -/
def CodeToken.IsInert : CodeToken → Prop
  | .word w => operator? w = none
  | .opening | .closing | .semicolon => False
  | _ => True

namespace FormulaReader

theorem step_inert {t : CodeToken} (h : t.IsInert) (s : FormulaReader) :
    s.step t = (s.operand.extend? t).map fun operand => { s with operand } := by
  cases t with
  | word w =>
    have hword : CodeToken.operator? w = none := h
    simp only [step, hword]
  | opening => exact h.elim
  | closing => exact h.elim
  | semicolon => exact h.elim
  | placeholder n => rfl
  | quoted text => rfl
  | sign text => rfl

theorem run_inert {ts us : List CodeToken} (h : ∀ t ∈ ts, t.IsInert) (fr : Frame)
    (outer : List Frame) (lacking : Bool) :
    (⟨fr, outer, .condition us lacking⟩ : FormulaReader).run ts =
      some ⟨fr, outer, .condition (us ++ ts) lacking⟩ := by
  induction ts generalizing us with
  | nil =>
    rw [List.append_nil]
    rfl
  | cons t ts ih =>
    rw [run, step_inert (h t List.mem_cons_self)]
    simp only [Operand.extend?, Option.map_some, Option.bind_some]
    rw [ih fun u hu => h u (List.mem_cons_of_mem t hu), List.append_assoc, List.singleton_append]

theorem run_condition {ts : List CodeToken} (hne : ts ≠ []) (h : ∀ t ∈ ts, t.IsInert) (fr : Frame)
    (outer : List Frame) :
    (⟨fr, outer, .missing⟩ : FormulaReader).run ts = some ⟨fr, outer, .condition ts false⟩ := by
  obtain ⟨t, ts, rfl⟩ := List.exists_cons_of_ne_nil hne
  rw [run, step_inert (h t List.mem_cons_self)]
  simp only [Operand.extend?, Option.map_some, Option.bind_some]
  exact run_inert (fun u hu => h u (List.mem_cons_of_mem t hu)) fr outer false

end FormulaReader

namespace Reading

/-- No part of the column of a condition is an operator. -/
def IsPlain : Reading → Prop
  | never => True
  | holds column _ => ∀ part ∈ column, CodeToken.operator? part = none

theorem inert_columnTokens {parts : List (List UInt8)}
    (h : ∀ part ∈ parts, CodeToken.operator? part = none) :
    ∀ t ∈ columnTokens parts, t.IsInert := by
  induction parts with
  | nil =>
    intro t ht
    cases ht
  | cons part parts ih =>
    have hpart : (CodeToken.word part).IsInert := h part List.mem_cons_self
    have hrest := ih fun p hp => h p (List.mem_cons_of_mem part hp)
    intro t ht
    cases parts with
    | nil =>
      rw [columnTokens_singleton, List.mem_singleton] at ht
      rwa [ht]
    | cons next parts =>
      rw [columnTokens_cons_cons, List.mem_cons, List.mem_cons] at ht
      rcases ht with rfl | rfl | ht
      · exact hpart
      · trivial
      · exact hrest t ht

theorem columnTokens_ne_nil {parts : List (List UInt8)} (h : parts ≠ []) :
    columnTokens parts ≠ [] := by
  obtain ⟨part, parts, rfl⟩ := List.exists_cons_of_ne_nil h
  cases parts with
  | nil => exact List.cons_ne_nil _ _
  | cons next parts =>
    rw [columnTokens_cons_cons]
    exact List.cons_ne_nil _ _

theorem inert_compares (comparison : Comparison) (n : Nat) :
    ∀ t ∈ (Operation.compares comparison n).tokens, t.IsInert := by
  intro t ht
  rcases List.mem_append.1 ht with ht | ht
  · obtain ⟨b, -, rfl⟩ := List.mem_map.1 ht
    trivial
  · rw [List.mem_singleton.1 ht]
    trivial

theorem inert_fits (matcher : Matcher) (n : Nat) :
    ∀ t ∈ (Operation.fits matcher n).tokens, t.IsInert := by
  have hword : CodeToken.operator? (bytes matcher.keyword) = none := by
    cases matcher <;> decide
  have hescape : CodeToken.operator? (bytes "ESCAPE") = none := by decide
  intro t ht
  cases matcher <;>
    simp only [Operation.tokens, Matcher.suffix, List.mem_cons, List.not_mem_nil, or_false] at ht
  all_goals
    rcases ht with rfl | rfl | rfl | rfl <;> first | exact hword | exact hescape | trivial

/-- A condition is one operand, a range with the AND that is its own. -/
theorem reads {r : Reading} (hsound : r.IsSound) (hplain : r.IsPlain) :
    Formula.Reads r.tokens (.leaf r.tokens) := by
  intro fr outer
  refine ⟨.condition r.tokens false, rfl, ?_⟩
  cases r with
  | never =>
    refine FormulaReader.run_condition (by decide) (fun t ht => ?_) fr outer
    simp only [tokens, neverTokens, List.mem_cons, List.not_mem_nil, or_false] at ht
    have hone : CodeToken.operator? (bytes "1") = none := by decide
    have hzero : CodeToken.operator? (bytes "0") = none := by decide
    rcases ht with rfl | rfl | rfl
    · exact hone
    · trivial
    · exact hzero
  | holds column operation =>
    have hcolumn := inert_columnTokens hplain
    have hne := columnTokens_ne_nil hsound.1
    rw [tokens, FormulaReader.run_append, FormulaReader.run_condition hne hcolumn,
      Option.bind_some]
    cases operation with
    | compares comparison n =>
      exact FormulaReader.run_inert (inert_compares comparison n) fr outer false
    | fits matcher n => exact FormulaReader.run_inert (inert_fits matcher n) fr outer false
    | within low high =>
      have hbetween : CodeToken.operator? (bytes "BETWEEN") = some .between := by decide
      have hand : CodeToken.operator? (bytes "AND") = some .and := by decide
      simp only [Operation.tokens, FormulaReader.run, FormulaReader.step, hbetween, hand,
        FormulaReader.passAnd, Operand.between?, Operand.extend?, Option.map_some,
        Option.bind_some, List.append_assoc, List.cons_append, List.nil_append]

/-! ## Clauses -/

/-- The formula of a group of alternatives. -/
def groupFormula : List Reading → Formula (List CodeToken)
  | [] => .leaf []
  | r :: rs => Connective.or.join (.leaf r.tokens) (rs.map fun r => .leaf r.tokens)

/-- The formula of a clause. -/
def clauseFormula (c : Connective) : List (List Reading) → Formula (List CodeToken)
  | [] => .leaf []
  | group :: groups => c.join (groupFormula group) (groups.map groupFormula)

theorem reads_group {group : List Reading} (hne : group ≠ []) (hsound : ∀ r ∈ group, r.IsSound)
    (hplain : ∀ r ∈ group, r.IsPlain) :
    Formula.Reads (groupTokens group) (groupFormula group) := by
  obtain ⟨r, rs, rfl⟩ := List.exists_cons_of_ne_nil hne
  exact Formula.Reads.parens .or fun r' hr' => reads (hsound r' hr') (hplain r' hr')

/-- A clause that may be read back: none of its groups is empty, and its columns are neither empty
nor operators. -/
structure Readable (groups : List (List Reading)) : Prop where
  ne_nil : groups ≠ []
  groups_ne_nil : ∀ group ∈ groups, group ≠ []
  sound : ∀ group ∈ groups, ∀ r ∈ group, r.IsSound
  plain : ∀ group ∈ groups, ∀ r ∈ group, r.IsPlain

namespace Readable

variable {groups : List (List Reading)} (h : Readable groups)

include h

theorem reads_groups : ∀ group ∈ groups, Formula.Reads (groupTokens group) (groupFormula group) :=
  fun group hgroup =>
    reads_group (h.groups_ne_nil group hgroup) (h.sound group hgroup) (h.plain group hgroup)

/-- In parentheses it is one operand. -/
theorem reads_parens (c : Connective) :
    Formula.Reads (.opening :: clauseTokens c groups ++ [.closing]) (clauseFormula c groups) := by
  have hgroups := h.reads_groups
  obtain ⟨group, groups, rfl⟩ := List.exists_cons_of_ne_nil h.ne_nil
  exact Formula.Reads.parens c hgroups

/-- By itself it is a whole predicate. -/
theorem readFormula (c : Connective) :
    Listing.readFormula (clauseTokens c groups) = some (clauseFormula c groups) := by
  have hgroups := h.reads_groups
  obtain ⟨group, groups, rfl⟩ := List.exists_cons_of_ne_nil h.ne_nil
  exact Formula.Reads.readFormula c hgroups

end Readable

end Reading

/-- What is joined by AND to a predicate in parentheses is read apart from it. -/
theorem readPredicate_and {own ts : List CodeToken} {f : Formula (List CodeToken)} (hown : own ≠ [])
    (hsplit : splitGroup 0 (own ++ .closing :: .word (bytes "AND") :: ts) =
      some (own, .word (bytes "AND") :: ts))
    (h : Formula.Reads ts f) :
    readPredicate own (.opening :: (own ++ .closing :: .word (bytes "AND") :: ts)) =
      some (.and (.leaf own) f) := by
  obtain ⟨operand, hformula, hrun⟩ := h { conjunction := some (.leaf own) } []
  have hand : (⟨Connective.and.frame none, [], .complete (.leaf own)⟩ : FormulaReader).step
      (.word (bytes "AND")) = some ⟨{ conjunction := some (.leaf own) }, [], .missing⟩ :=
    Connective.step_keyword .and none rfl []
  rw [Connective.frame_none] at hand
  rw [readPredicate, if_neg hown]
  simp only [hsplit, Option.bind_some, ↓reduceIte]
  rw [FormulaReader.run, hand, Option.bind_some, hrun, Option.bind_some, FormulaReader.formula?,
    if_pos rfl, hformula]
  rfl

/-! ## Truth -/

namespace Reading

theorem leaves_groupFormula {group : List Reading} (hne : group ≠ []) :
    (groupFormula group).leaves = group.map tokens := by
  obtain ⟨r, rs, rfl⟩ := List.exists_cons_of_ne_nil hne
  rw [groupFormula, Connective.leaves_join, List.flatMap_cons, List.flatMap_map]
  simp only [Formula.leaves, List.singleton_append, List.map_cons]
  rw [← List.map_eq_flatMap]

theorem leaves_clauseFormula (c : Connective) {groups : List (List Reading)} (hne : groups ≠ [])
    (hgroups : ∀ group ∈ groups, group ≠ []) :
    (clauseFormula c groups).leaves = groups.flatten.map tokens := by
  have hleaves : groups.flatMap (fun group => (groupFormula group).leaves) =
      groups.flatten.map tokens := by
    rw [List.flatten_eq_flatMap, List.map_flatMap]
    exact List.flatMap_congr fun group hgroup => leaves_groupFormula (hgroups group hgroup)
  rw [← hleaves]
  obtain ⟨group, groups, rfl⟩ := List.exists_cons_of_ne_nil hne
  rw [clauseFormula, Connective.leaves_join, List.flatMap_cons, List.flatMap_map, List.flatMap_cons]

/-- A group holds if one of its conditions does. -/
theorem holds_groupFormula {group : List Reading} {truth : List Bool} (hne : group ≠ [])
    (h : group.length = truth.length) :
    (groupFormula group).holds truth = Connective.or.holds truth := by
  obtain ⟨r, rs, rfl⟩ := List.exists_cons_of_ne_nil hne
  obtain ⟨b, bs, rfl⟩ := List.exists_cons_of_length_eq_add_one h.symm
  have hlength : rs.length = bs.length := Nat.succ.inj h
  -- each condition takes one truth value
  have hsizes : Forall₂ (fun (f : Formula (List CodeToken)) (us : List Bool) =>
      us.length = f.leaves.length) (rs.map fun r => .leaf r.tokens) (bs.map fun b => [b]) := by
    rw [List.forall₂_map_left_iff, List.forall₂_map_right_iff, List.forall₂_iff_zip]
    exact ⟨hlength, fun _ => rfl⟩
  have hzip : List.zipWith Formula.holds (rs.map fun r => .leaf r.tokens) (bs.map fun b => [b]) =
      bs := by
    refine List.ext_getElem (by simp [hlength]) fun i hi hi' => ?_
    simp [Formula.holds]
  have hflatten : (bs.map fun b => [b]).flatten = bs := by
    rw [← List.flatMap_def, List.flatMap_singleton']
  have hone : [b].length = (Formula.leaf r.tokens).leaves.length := rfl
  have hjoin := Connective.holds_join .or hone hsizes
  rw [hzip, hflatten] at hjoin
  exact hjoin

/-- A clause holds as its connective says, given which of its groups do. -/
theorem holds_clauseFormula (c : Connective) {groups : List (List Reading)}
    {truth : List (List Bool)} (hne : groups ≠ []) (hgroups : ∀ group ∈ groups, group ≠ [])
    (h : Forall₂ (fun group ts => group.length = ts.length) groups truth) :
    (clauseFormula c groups).holds truth.flatten = c.holds (truth.map Connective.or.holds) := by
  have hall {groups : List (List Reading)} {truth : List (List Bool)}
      (hgroups : ∀ group ∈ groups, group ≠ [])
      (h : Forall₂ (fun group ts => group.length = ts.length) groups truth) :
      Forall₂ (fun (f : Formula (List CodeToken)) (ts : List Bool) => ts.length = f.leaves.length)
          (groups.map groupFormula) truth ∧
        List.zipWith Formula.holds (groups.map groupFormula) truth =
          truth.map Connective.or.holds := by
    induction h with
    | nil => exact ⟨.nil, rfl⟩
    | @cons group ts groups truth hlength _ ih =>
      have hgroup := hgroups group List.mem_cons_self
      obtain ⟨hsizes, hzip⟩ := ih fun g hg => hgroups g (List.mem_cons_of_mem group hg)
      refine ⟨.cons ?_ hsizes, ?_⟩
      · rw [leaves_groupFormula hgroup, List.length_map, hlength]
      · rw [List.map_cons, List.zipWith_cons_cons, hzip, holds_groupFormula hgroup hlength]
        rfl
  cases h with
  | nil => exact absurd rfl hne
  | @cons group ts groups truth hlength hrest =>
    have hgroup := hgroups group List.mem_cons_self
    obtain ⟨hsizes, hzip⟩ := hall (fun g hg => hgroups g (List.mem_cons_of_mem group hg)) hrest
    rw [clauseFormula, List.flatten_cons, Connective.holds_join c _ hsizes, hzip,
      holds_groupFormula hgroup hlength]
    · rfl
    · rw [leaves_groupFormula hgroup, List.length_map, hlength]

end Reading

end Listing
