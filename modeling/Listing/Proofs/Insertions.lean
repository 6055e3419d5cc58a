import Listing.Proofs.Scanning
import Listing.Statement.Splice

/-!
# Reading a text with insertions

What inserting texts at cuts does to the marks of a balanced text. `Edit.Leads`
follows the depth through a list of edits, and `Edit.depthAt` tells how many more parentheses are
open at a byte of the text because of the edits in front of it.

* The kept pieces are the text up to its end (`Edit.keptBytes_of_piecesFrom`).
* A kept byte keeps its mark, further down by `Edit.depthAt` (`Edit.marks_kept`).
* An inserted byte belongs to what it belongs to in its own text (`Edit.cls_added`).
* The reader comes back to where it was without the edits (`Edit.after_pieces`).
-/

namespace Listing

open Text

/-! ## Bytes of pieces -/

namespace Piece

def bytes (x : Piece) : List UInt8 := Text.bytes x.text

/-- The bytes that were there before. -/
def keptBytes : Piece → List UInt8
  | kept text => Text.bytes text
  | added _ => []

end Piece

theorem bytes_join (ss : List String) : bytes (String.join ss) = ss.flatMap bytes := by
  induction ss with
  | nil => rfl
  | cons s ss ih => rw [String.join_cons, bytes_append, ih, List.flatMap_cons]

theorem bytes_of_ofBytes? {bs : List UInt8} {s : String} (h : ofBytes? bs = some s) :
    bytes s = bs := by
  unfold ofBytes? String.fromUTF8? at h
  split at h
  · rw [← Option.some.inj h]
    rfl
  · cases h

/-! ## Stretches between cuts -/

namespace Cut

variable {text : List UInt8} {p q d : Nat}

/-- What lies between two cuts, as long as something does, opens no comment at its start. -/
theorem splits_between (hp : Cut text p d) :
    Reader.Splits (text.take p) ((text.take q).drop p) := by
  intro a ha b hb
  refine hp.splits a ha b ?_
  rw [List.drop_take, List.head?_take] at hb
  split at hb
  · cases hb
  · exact hb

theorem take_eq (hle : p ≤ q) : text.take q = text.take p ++ (text.take q).drop p := by
  have htake := List.take_append_drop p (text.take q)
  rwa [List.take_take, Nat.min_eq_left hle, eq_comm] at htake

theorem neutral_between (hbalanced : Balanced text) (hp : Cut text p 0) (hq : Cut text q 0)
    (hle : p ≤ q) : Reader.Neutral ((text.take q).drop p) := by
  have hreads := hq.reads
  have hnested := hbalanced.nested
  rw [← List.take_append_drop q text, Reader.nested_append hq.splits] at hnested
  rw [take_eq hle, Reader.after_append hp.splits_between, hp.reads] at hreads
  have htake := hnested.1
  rw [take_eq hle, Reader.nested_append hp.splits_between, hp.reads] at htake
  exact ⟨htake.2, hreads⟩

theorem marks_between (hp : Cut text p 0) (hq : Cut text q 0) (hle : p ≤ q) {k : Nat}
    (hk : k < q - p) :
    (({} : Reader).marks text)[p + k]? =
      (({} : Reader).marks ((text.take q).drop p))[k]? := by
  have hmarks : ({} : Reader).marks text = ({} : Reader).marks (text.take p) ++
      (({} : Reader).marks ((text.take q).drop p) ++ ({} : Reader).marks (text.drop q)) := by
    rw [← List.append_assoc]
    conv => lhs; rw [← List.take_append_drop q text]
    rw [Reader.marks_append hq.splits, hq.reads, take_eq hle,
      Reader.marks_append hp.splits_between, hp.reads, ← take_eq hle]
  have hlength : (({} : Reader).marks (text.take p)).length = p := by
    rw [Reader.length_marks, List.length_take]
    exact Nat.min_eq_left hp.le
  have hlength' : (({} : Reader).marks ((text.take q).drop p)).length = q - p := by
    rw [Reader.length_marks, List.length_drop, List.length_take, Nat.min_eq_left hq.le]
  rw [hmarks, List.getElem?_append_right (by omega), hlength, Nat.add_sub_cancel_left,
    List.getElem?_append_left (by omega)]

end Cut

/-! ## Edits -/

namespace Edit

/-- Read one after the other, the texts of the edits lead from one depth to another. -/
inductive Leads : Nat → List Edit → Nat → Prop
  | nil {d : Nat} : Leads d [] d
  | cons {d d' d'' : Nat} {e : Edit} {es : List Edit} (hfit : Reader.Fit (bytes e.text))
      (hafter : (⟨.code, d⟩ : Reader).after (bytes e.text) = ⟨.code, d'⟩) (h : Leads d' es d'') :
      Leads d (e :: es) d''

theorem Leads.append {d d' d'' : Nat} {es es' : List Edit} (h : Leads d es d')
    (h' : Leads d' es' d'') : Leads d (es ++ es') d'' := by
  induction h with
  | nil => exact h'
  | cons hfit hafter _ ih => exact .cons hfit hafter (ih h')

theorem Leads.of_neutral {es : List Edit}
    (h : ∀ e ∈ es, Reader.Fit (bytes e.text) ∧ Reader.Neutral (bytes e.text)) (d : Nat) :
    Leads d es d := by
  induction es with
  | nil => exact .nil
  | cons e es ih =>
    obtain ⟨hfit, hneutral⟩ := h e List.mem_cons_self
    exact .cons hfit (hneutral.after d) (ih fun a ha => h a (List.mem_cons_of_mem e ha))

/-- How many parentheses the edits up to a position of the text leave open, on top of `d`. -/
def depthAt (d : Nat) (es : List Edit) (position : Nat) : Nat :=
  match es with
  | [] => d
  | e :: es =>
    if e.position ≤ position then
      depthAt ((⟨.code, d⟩ : Reader).after (bytes e.text)).depth es position
    else d

theorem depthAt_of_neutral {es : List Edit} (h : ∀ e ∈ es, Reader.Neutral (bytes e.text))
    (d position : Nat) : depthAt d es position = d := by
  induction es with
  | nil => rfl
  | cons e es ih =>
    rw [depthAt, (h e List.mem_cons_self).after d]
    split
    · exact ih fun a ha => h a (List.mem_cons_of_mem e ha)
    · rfl

theorem depthAt_neutral_append {es es' : List Edit}
    (h : ∀ e ∈ es, Reader.Neutral (bytes e.text))
    (hordered : ∀ e ∈ es, ∀ a ∈ es', e.position ≤ a.position) (d position : Nat) :
    depthAt d (es ++ es') position = depthAt d es' position := by
  induction es with
  | nil => rfl
  | cons e es ih =>
    rw [List.cons_append, depthAt, (h e List.mem_cons_self).after d]
    split
    · exact ih (fun a ha => h a (List.mem_cons_of_mem e ha))
        fun a ha => hordered a (List.mem_cons_of_mem e ha)
    · cases es' with
      | nil => rfl
      | cons a es' =>
        have hle := hordered e List.mem_cons_self a List.mem_cons_self
        rw [depthAt, if_neg (by omega)]

theorem depthAt_append_neutral {es es' : List Edit}
    (h : ∀ e ∈ es', Reader.Neutral (bytes e.text)) (d position : Nat) :
    depthAt d (es ++ es') position = depthAt d es position := by
  induction es generalizing d with
  | nil => exact depthAt_of_neutral h d position
  | cons e es ih =>
    rw [List.cons_append, depthAt, depthAt]
    split
    · exact ih _
    · rfl

variable {text : List UInt8} {cursor stop d : Nat} {e : Edit} {es : List Edit} {ps : List Piece}

theorem piecesFrom_nil {base : List UInt8} (h : piecesFrom base cursor [] = some ps) :
    ∃ t, bytes t = base.drop cursor ∧ ps = [.kept t] := by
  simp only [piecesFrom, Option.bind_eq_bind, Option.bind_eq_some_iff] at h
  obtain ⟨t, ht, hps⟩ := h
  exact ⟨t, bytes_of_ofBytes? ht, (Option.some.inj hps).symm⟩

theorem piecesFrom_cons {base : List UInt8} (h : piecesFrom base cursor (e :: es) = some ps) :
    cursor ≤ e.position ∧ e.position ≤ base.length ∧
      ∃ t ps', bytes t = (base.take e.position).drop cursor ∧
        piecesFrom base e.position es = some ps' ∧ ps = .kept t :: .added e.text :: ps' := by
  rw [piecesFrom] at h
  split at h
  · rename_i hle
    simp only [Option.bind_eq_bind, Option.bind_eq_some_iff] at h
    obtain ⟨t, ht, ps', hps', hps⟩ := h
    exact ⟨hle.1, hle.2, t, ps', bytes_of_ofBytes? ht, hps', (Option.some.inj hps).symm⟩
  · cases h

/-- What follows the first `cursor` bytes of a text, with the texts of the edits in it. -/
def weave (base : List UInt8) (cursor : Nat) : List Edit → List UInt8
  | [] => base.drop cursor
  | e :: es => (base.take e.position).drop cursor ++ (bytes e.text ++ weave base e.position es)

theorem bytes_of_piecesFrom {base : List UInt8} (h : piecesFrom base cursor es = some ps) :
    ps.flatMap Piece.bytes = weave base cursor es := by
  induction es generalizing cursor ps with
  | nil =>
    obtain ⟨t, ht, rfl⟩ := piecesFrom_nil h
    simpa [Piece.bytes, Piece.text, weave] using ht
  | cons e es ih =>
    obtain ⟨-, -, t, ps', ht, hps', rfl⟩ := piecesFrom_cons h
    simp only [List.flatMap_cons, Piece.bytes, Piece.text, weave, ht, ih hps']

theorem keptBytes_of_piecesFrom {base : List UInt8} (h : piecesFrom base cursor es = some ps) :
    ps.flatMap Piece.keptBytes = base.drop cursor := by
  induction es generalizing cursor ps with
  | nil =>
    obtain ⟨t, ht, rfl⟩ := piecesFrom_nil h
    simpa [Piece.keptBytes] using ht
  | cons e es ih =>
    obtain ⟨hle, hlength, t, ps', ht, hps', rfl⟩ := piecesFrom_cons h
    simp only [List.flatMap_cons, Piece.keptBytes, ih hps', ht, List.nil_append]
    rw [List.drop_take]
    have hdrop := List.take_append_drop (e.position - cursor) (base.drop cursor)
    rwa [List.drop_drop, Nat.add_sub_cancel' hle] at hdrop

/-- What the statements below share: edits of a balanced text at cuts of it, up to a cut. -/
structure Sound (text : List UInt8) (cursor stop d : Nat) (es : List Edit) : Prop where
  balanced : Balanced text
  atCursor : Cut text cursor 0
  atStop : Cut text stop 0
  le : cursor ≤ stop
  atEdits : ∀ e ∈ es, Cut text e.position 0
  leads : Leads d es 0

/-- The stretch in front of an edit, the edit itself, and what is left to do behind it. -/
theorem Sound.cons (h : Sound text cursor stop d (e :: es)) (hle : cursor ≤ e.position)
    (hstop : e.position ≤ stop) :
    Reader.Neutral ((text.take e.position).drop cursor) ∧
      ∃ d', Reader.Fit (bytes e.text) ∧ (⟨.code, d⟩ : Reader).after (bytes e.text) = ⟨.code, d'⟩ ∧
        Sound text e.position stop d' es := by
  have hedit := h.atEdits e List.mem_cons_self
  refine ⟨Cut.neutral_between h.balanced h.atCursor hedit hle, ?_⟩
  cases h.leads with
  | cons hfit hafter hleads =>
    exact ⟨_, hfit, hafter, h.balanced, hedit, h.atStop, hstop,
      fun a ha => h.atEdits a (List.mem_cons_of_mem e ha), hleads⟩

/-- The first stretch of a text with edits, the first edit, and the rest. -/
theorem Sound.pieces_cons (h : Sound text cursor stop d (e :: es))
    (hps : piecesFrom (text.take stop) cursor (e :: es) = some ps) :
    ∃ t ps' d', ps = .kept t :: .added e.text :: ps' ∧ cursor ≤ e.position ∧
      bytes t = (text.take e.position).drop cursor ∧ Reader.Neutral (bytes t) ∧
      Reader.Fit (bytes e.text) ∧ (⟨.code, d⟩ : Reader).after (bytes e.text) = ⟨.code, d'⟩ ∧
      Sound text e.position stop d' es ∧
      piecesFrom (text.take stop) e.position es = some ps' := by
  obtain ⟨hle, hlength, t, ps', ht, hps', rfl⟩ := piecesFrom_cons hps
  rw [List.length_take] at hlength
  have hstop : e.position ≤ stop := by omega
  obtain ⟨hneutral, d', hfit, hafter, hrest⟩ := h.cons hle hstop
  rw [List.take_take, Nat.min_eq_left hstop] at ht
  exact ⟨t, ps', d', rfl, hle, ht, ht ▸ hneutral, hfit, hafter, hrest, hps'⟩

theorem Sound.pieces_nil (h : Sound text cursor stop d [])
    (hps : piecesFrom (text.take stop) cursor [] = some ps) :
    ∃ t, ps = [.kept t] ∧ bytes t = (text.take stop).drop cursor ∧ Reader.Neutral (bytes t) ∧
      d = 0 := by
  obtain ⟨t, ht, rfl⟩ := piecesFrom_nil hps
  have hneutral := Cut.neutral_between h.balanced h.atCursor h.atStop h.le
  cases h.leads
  exact ⟨t, rfl, ht, ht ▸ hneutral, rfl⟩

theorem after_woven {u v w : List UInt8} {d d' : Nat} (hu : Reader.Neutral u) (hv : Reader.Fit v)
    (hafter : (⟨.code, d⟩ : Reader).after v = ⟨.code, d'⟩) :
    (⟨.code, d⟩ : Reader).after (u ++ (v ++ w)) = (⟨.code, d'⟩ : Reader).after w := by
  rw [Reader.after_append hv.splits_left, hu.after d, Reader.after_append hv.splits_right, hafter]

theorem marks_woven {u v w : List UInt8} {d d' : Nat} (hu : Reader.Neutral u) (hv : Reader.Fit v)
    (hafter : (⟨.code, d⟩ : Reader).after v = ⟨.code, d'⟩) :
    (⟨.code, d⟩ : Reader).marks (u ++ (v ++ w)) =
      (({} : Reader).marks u).map (·.deepen d) ++
        ((⟨.code, d⟩ : Reader).marks v ++ (⟨.code, d'⟩ : Reader).marks w) := by
  have hdeepen := Reader.marks_deepen (n := d) hu.nested
  have hreader : ({} : Reader).deepen d = ⟨.code, d⟩ := by
    simp [Reader.deepen]
  rw [hreader] at hdeepen
  rw [Reader.marks_append hv.splits_left, hu.after d, Reader.marks_append hv.splits_right, hafter,
    hdeepen]

/-- Behind all pieces the reader is in code at depth 0. -/
theorem after_pieces (h : Sound text cursor stop d es)
    (hps : piecesFrom (text.take stop) cursor es = some ps) :
    (⟨.code, d⟩ : Reader).after (ps.flatMap Piece.bytes) = {} := by
  induction es generalizing cursor d ps with
  | nil =>
    obtain ⟨t, rfl, -, hneutral, rfl⟩ := h.pieces_nil hps
    simpa [Piece.bytes, Piece.text] using hneutral.closed
  | cons e es ih =>
    obtain ⟨t, ps', d', rfl, -, -, hneutral, hfit, hafter, hrest, hps'⟩ := h.pieces_cons hps
    simp only [List.flatMap_cons, Piece.bytes, Piece.text]
    rw [after_woven hneutral hfit hafter]
    exact ih hrest hps'

/-- Behind a text with edits in order, too. -/
theorem Sound.after_weave (h : Sound text cursor stop d es)
    (hordered : es.Pairwise fun e a => e.position ≤ a.position)
    (hes : ∀ e ∈ es, cursor ≤ e.position ∧ e.position ≤ stop) :
    (⟨.code, d⟩ : Reader).after (weave (text.take stop) cursor es) = {} := by
  induction es generalizing cursor d with
  | nil =>
    cases h.leads
    exact (Cut.neutral_between h.balanced h.atCursor h.atStop h.le).closed
  | cons e es ih =>
    obtain ⟨hle, hstop⟩ := hes e List.mem_cons_self
    obtain ⟨hfirst, hrest⟩ := List.pairwise_cons.1 hordered
    obtain ⟨hneutral, d', hfit, hafter, hsound⟩ := h.cons hle hstop
    rw [weave, List.take_take, Nat.min_eq_left hstop, after_woven hneutral hfit hafter]
    exact ih hsound hrest fun a ha => ⟨hfirst a ha, (hes a (List.mem_cons_of_mem e ha)).2⟩

/-- A piece is the kept one in front of an edit, the edit's own, or one behind. -/
theorem split_pieces {x y z : Piece} {l r : List Piece} (h : x :: y :: ps = l ++ z :: r) :
    (l = [] ∧ z = x) ∨ (l = [x] ∧ z = y) ∨ ∃ l', l = x :: y :: l' ∧ ps = l' ++ z :: r := by
  cases l with
  | nil => exact .inl ⟨rfl, (List.cons_eq_cons.1 h).1.symm⟩
  | cons a l =>
    obtain ⟨rfl, htail⟩ := List.cons_eq_cons.1 h
    cases l with
    | nil => exact .inr (.inl ⟨rfl, (List.cons_eq_cons.1 htail).1.symm⟩)
    | cons b l =>
      obtain ⟨rfl, hrest⟩ := List.cons_eq_cons.1 htail
      exact .inr (.inr ⟨l, rfl, hrest⟩)

/-- The byte of a kept piece, as the text with the edits and the text itself are read. -/
theorem marks_kept (h : Sound text cursor stop d es)
    (hps : piecesFrom (text.take stop) cursor es = some ps) {l r : List Piece} {t : String}
    (hl : ps = l ++ .kept t :: r) {k : Nat} (hk : k < (bytes t).length) :
    ((⟨.code, d⟩ : Reader).marks (ps.flatMap Piece.bytes))[(l.flatMap Piece.bytes).length + k]? =
      ((({} : Reader).marks text)[cursor + (l.flatMap Piece.keptBytes).length + k]?).map
        (·.deepen (depthAt d es (cursor + (l.flatMap Piece.keptBytes).length + k))) := by
  induction es generalizing cursor d ps l with
  | nil =>
    obtain ⟨t', rfl, ht, hneutral, rfl⟩ := h.pieces_nil hps
    obtain ⟨rfl, hcons⟩ : l = [] ∧ Piece.kept t' = .kept t := by
      cases l with
      | nil => exact ⟨rfl, (List.cons_eq_cons.1 hl).1⟩
      | cons x l => simp at hl
    obtain rfl := Piece.kept.inj hcons
    rw [ht, List.length_drop, List.length_take, Nat.min_eq_left h.atStop.le] at hk
    have hmarks := Cut.marks_between h.atCursor h.atStop h.le hk
    simp [Piece.bytes, Piece.text, hmarks, ht, depthAt, Mark.deepen]
  | cons e es ih =>
    obtain ⟨t', ps', d', rfl, hle, ht, hneutral, hfit, hafter, hrest, hps'⟩ := h.pieces_cons hps
    have hposition : (bytes t').length = e.position - cursor := by
      rw [ht, List.length_drop, List.length_take,
        Nat.min_eq_left (h.atEdits e List.mem_cons_self).le]
    have hmarks := marks_woven (w := ps'.flatMap Piece.bytes) hneutral hfit hafter
    simp only [List.flatMap_cons, Piece.bytes, Piece.text, hmarks]
    rcases split_pieces hl with ⟨rfl, hkept⟩ | ⟨-, hadded⟩ | ⟨l, rfl, hl'⟩
    · obtain rfl := Piece.kept.inj hkept
      have hbetween := Cut.marks_between h.atCursor (h.atEdits e List.mem_cons_self) hle
        (hposition ▸ hk)
      have hnot : ¬e.position ≤ cursor + k := by omega
      rw [List.getElem?_append_left (by simpa using hk)]
      simp [hbetween, ← ht, depthAt, hnot]
    · cases hadded
    · have hkept := ih hrest hps' hl'
      have hd' : ((⟨.code, d⟩ : Reader).after (bytes e.text)).depth = d' := by rw [hafter]
      have hcursor (n : Nat) : cursor + ((bytes t').length + n) = e.position + n := by omega
      simp only [List.flatMap_cons, Piece.bytes, Piece.text, Piece.keptBytes, List.nil_append,
        List.length_append, hcursor]
      rw [depthAt, hd', if_pos (by omega), ← hkept, List.getElem?_append_right (by simp; omega),
        List.getElem?_append_right (by simp; omega)]
      congr 1
      simp
      omega

/-- The byte of an inserted piece belongs to what it belongs to in its own text. -/
theorem cls_added (h : Sound text cursor stop d es)
    (hps : piecesFrom (text.take stop) cursor es = some ps) {l r : List Piece} {t : String}
    (hl : ps = l ++ .added t :: r) {k : Nat} (hk : k < (bytes t).length) :
    ((⟨.code, d⟩ : Reader).marks (ps.flatMap Piece.bytes))[(l.flatMap Piece.bytes).length + k]?.map
        (·.cls) =
      ((({} : Reader).marks (bytes t))[k]?).map (·.cls) := by
  induction es generalizing cursor d ps l with
  | nil =>
    obtain ⟨t', rfl, -⟩ := h.pieces_nil hps
    cases l <;> simp at hl
  | cons e es ih =>
    obtain ⟨t', ps', d', rfl, -, -, hneutral, hfit, hafter, hrest, hps'⟩ := h.pieces_cons hps
    have hmarks := marks_woven (w := ps'.flatMap Piece.bytes) hneutral hfit hafter
    simp only [List.flatMap_cons, Piece.bytes, Piece.text, hmarks]
    rcases split_pieces hl with ⟨-, hkept⟩ | ⟨rfl, hadded⟩ | ⟨l, rfl, hl'⟩
    · cases hkept
    · obtain rfl := Piece.added.inj hadded
      have hcls : ((⟨.code, d⟩ : Reader).marks (bytes e.text)).map (·.cls) =
          (({} : Reader).marks (bytes e.text)).map (·.cls) := Reader.cls_marks rfl
      simp only [List.flatMap_cons, Piece.bytes, Piece.text, List.flatMap_nil, List.append_nil]
      rw [List.getElem?_append_right (by simp), List.getElem?_append_left (by simpa using hk)]
      simp only [List.length_map, Reader.length_marks, Nat.add_sub_cancel_left]
      rw [← List.getElem?_map, hcls, List.getElem?_map]
    · rw [← ih hrest hps' hl']
      simp only [List.flatMap_cons, Piece.bytes, Piece.text, List.length_append]
      rw [List.getElem?_append_right (by simp; omega), List.getElem?_append_right (by simp; omega)]
      congr 2
      simp
      omega

end Edit

end Listing
