import Listing.Proofs.LexemeReading
import Listing.Statement.Outline

/-!
# What a scan finds

The positions that the outline of a text holds. `Scan.Reaches` says how far a scan can come; what
one step keeps is what every outline has.

* The words of an outline follow one another, each behind the last code in front of it
  (`Outline.words_ordered`, `Outline.word_bounds`).
* The end of the last code in front of a word, the end of a word and the end of all code are `Cut`s:
  the reader stands in code there, and the text may be read in two parts (`Outline.cut_before`,
  `Outline.cut_stop`, `Outline.cut_codeEnd`).
-/

namespace Listing

open Text

/-! ## Order -/

namespace Scan

variable {s : Scan} {x : Lexeme} {xs : List Lexeme} {w : Word}

theorem pass_depth (s : Scan) (x : Lexeme) : (s.pass x).depth = x.depthBehind s.depth := rfl

theorem pass_position (s : Scan) (x : Lexeme) :
    (s.pass x).position = s.position + x.text.length := rfl

theorem codeEnd_pass_of_isCode (h : s.isCode x = true) :
    (s.pass x).codeEnd = s.position + x.text.length := if_pos h

theorem codeEnd_pass_of_not_isCode (h : ¬s.isCode x = true) : (s.pass x).codeEnd = s.codeEnd :=
  if_neg h

theorem codeEnd_pass_le (h : s.codeEnd ≤ s.position) :
    (s.pass x).codeEnd ≤ (s.pass x).position := by
  rw [pass_position]
  unfold pass
  dsimp only
  split <;> omega

theorem le_codeEnd_pass (h : s.codeEnd ≤ s.position) : s.codeEnd ≤ (s.pass x).codeEnd := by
  unfold pass
  dsimp only
  split <;> omega

theorem le_codeEnd_foldl (h : s.codeEnd ≤ s.position) :
    s.codeEnd ≤ (xs.foldl pass s).codeEnd := by
  induction xs generalizing s with
  | nil => exact Nat.le_refl _
  | cons x xs ih => exact Nat.le_trans (le_codeEnd_pass h) (ih (codeEnd_pass_le h))

theorem word?_eq_some (h : s.word? x = some w) :
    x.kind = .word ∧ s.depth = 0 ∧ s.afterPoint = false ∧
      w = ⟨s.position, s.position + x.text.length, s.codeEnd, x.text⟩ := by
  unfold word? at h
  split at h
  · rename_i hx
    exact ⟨hx.1, hx.2.1, hx.2.2, (Option.some.inj h).symm⟩
  · cases h

/-- A word is code, so its end is the end of the code behind it. -/
theorem codeEnd_pass_of_word (h : x.kind = .word) :
    (s.pass x).codeEnd = s.position + x.text.length := by
  simp [pass, isCode, h]

/-- A word among lexemes stands behind the code passed so far, and in front of the end of all. -/
theorem word_bounds (hs : s.codeEnd ≤ s.position) (hxs : ∀ x ∈ xs, x.text ≠ [])
    (hw : w ∈ s.words xs) :
    s.codeEnd ≤ w.before ∧ w.before ≤ w.start ∧ s.position ≤ w.start ∧ w.start < w.stop ∧
      w.stop ≤ (xs.foldl pass s).codeEnd := by
  induction xs generalizing s with
  | nil => cases hw
  | cons x xs ih =>
    rcases List.mem_append.1 hw with hw | hw
    · obtain ⟨hkind, -, -, rfl⟩ := word?_eq_some (Option.mem_toList.1 hw)
      have hpos := List.length_pos_iff.2 (hxs x List.mem_cons_self)
      have hend : (s.pass x).codeEnd ≤ (xs.foldl pass (s.pass x)).codeEnd :=
        le_codeEnd_foldl (codeEnd_pass_le hs)
      rw [codeEnd_pass_of_word hkind] at hend
      exact ⟨Nat.le_refl _, hs, Nat.le_refl _, by dsimp only; omega, hend⟩
    · obtain ⟨hcode, hbefore, hstart, hstop, hend⟩ :=
        ih (codeEnd_pass_le hs) (fun y hy => hxs y (List.mem_cons_of_mem x hy)) hw
      have hle := le_codeEnd_pass (x := x) hs
      rw [pass_position] at hstart
      exact ⟨by omega, hbefore, by omega, hstop, hend⟩

theorem words_ordered (hs : s.codeEnd ≤ s.position) (hxs : ∀ x ∈ xs, x.text ≠ []) :
    (s.words xs).Pairwise fun w w' => w.stop ≤ w'.before := by
  induction xs generalizing s with
  | nil => exact .nil
  | cons x xs ih =>
    have hxs' : ∀ y ∈ xs, y.text ≠ [] := fun y hy => hxs y (List.mem_cons_of_mem x hy)
    have hrest := ih (codeEnd_pass_le (x := x) hs) hxs'
    unfold words
    cases hword : s.word? x with
    | none => exact hrest
    | some w =>
      refine List.pairwise_cons.2 ⟨fun w' hw' => ?_, hrest⟩
      obtain ⟨hkind, -, -, rfl⟩ := word?_eq_some hword
      have hbefore := (word_bounds (codeEnd_pass_le hs) hxs' hw').1
      rwa [codeEnd_pass_of_word hkind] at hbefore

end Scan

theorem text_ne_nil_of_mem_lexemes {bs : List UInt8} {x : Lexeme} (h : x ∈ lexemes bs) :
    x.text ≠ [] := by
  fun_induction lexemes bs with
  | case1 => cases h
  | case2 b r ih =>
    rcases List.mem_cons.1 h with rfl | h
    · exact Lexeme.first_text_ne_nil b r
    · exact ih h

theorem foldl_pass_position (s : Scan) (xs : List Lexeme) :
    (xs.foldl Scan.pass s).position = s.position + (xs.flatMap (·.text)).length := by
  induction xs generalizing s with
  | nil => rfl
  | cons x xs ih =>
    rw [List.foldl_cons, ih, Scan.pass_position, List.flatMap_cons, List.length_append]
    omega

theorem foldl_pass_codeEnd_le {s : Scan} (h : s.codeEnd ≤ s.position) (xs : List Lexeme) :
    (xs.foldl Scan.pass s).codeEnd ≤ (xs.foldl Scan.pass s).position := by
  induction xs generalizing s with
  | nil => exact h
  | cons x xs ih => exact ih (Scan.codeEnd_pass_le h)

namespace Outline

variable {text : List UInt8} {w : Word}

/-- Each word ends in front of the last code before the next one. -/
theorem words_ordered (text : List UInt8) :
    (Outline.of text).words.Pairwise fun w w' => w.stop ≤ w'.before :=
  Scan.words_ordered (Nat.le_refl 0) fun _ => text_ne_nil_of_mem_lexemes

section

variable {v : Word} {A B : List Word} (hws : (Outline.of text).words = A ++ w :: B)

include hws

theorem stop_le_of_mem_front (hv : v ∈ A) : v.stop ≤ w.before := by
  have hordered := words_ordered text
  rw [hws] at hordered
  exact (List.pairwise_append.1 hordered).2.2 v hv w List.mem_cons_self

theorem le_before_of_mem_back (hv : v ∈ B) : w.stop ≤ v.before := by
  have hordered := words_ordered text
  rw [hws] at hordered
  exact (List.pairwise_cons.1 (List.pairwise_append.1 hordered).2.1).1 v hv

end

theorem word_bounds (h : w ∈ (Outline.of text).words) :
    w.before ≤ w.start ∧ w.start < w.stop ∧ w.stop ≤ (Outline.of text).codeEnd := by
  obtain ⟨-, hbefore, -, hstop, hend⟩ :=
    Scan.word_bounds (Nat.le_refl 0) (fun _ => text_ne_nil_of_mem_lexemes) h
  exact ⟨hbefore, hstop, hend⟩

theorem mem_wordsBetween {a b : Nat} : w ∈ (Outline.of text).wordsBetween a b ↔
    w ∈ (Outline.of text).words ∧ a ≤ w.start ∧ w.stop ≤ b := by
  rw [wordsBetween, List.mem_filter, decide_eq_true_iff]

/-- All words between two positions stand behind the first of them. -/
theorem head?_wordsBetween_spec {a b : Nat}
    (h : ((Outline.of text).wordsBetween a b).head? = some w) :
    w ∈ (Outline.of text).words ∧ a ≤ w.start ∧ w.stop ≤ b ∧
      ∀ v ∈ (Outline.of text).words, a ≤ v.start → v.stop ≤ b → v = w ∨ w.stop ≤ v.before := by
  obtain ⟨hw, ha, hb⟩ := mem_wordsBetween.1 (List.mem_of_head? h)
  refine ⟨hw, ha, hb, fun v hv hav hvb => ?_⟩
  have hordered := (words_ordered text).sublist (List.filter_sublist (p := fun w : Word =>
    decide (a ≤ w.start ∧ w.stop ≤ b)))
  change List.Pairwise _ ((Outline.of text).wordsBetween a b) at hordered
  have hmem := mem_wordsBetween.2 ⟨hv, hav, hvb⟩
  obtain ⟨l, hl⟩ := List.head?_eq_some_iff.1 h
  rw [hl] at hordered hmem
  rcases List.mem_cons.1 hmem with rfl | hmem
  · exact .inl rfl
  · exact .inr ((List.pairwise_cons.1 hordered).1 v hmem)

theorem codeEnd_le (text : List UInt8) : (Outline.of text).codeEnd ≤ text.length := by
  have hle := foldl_pass_codeEnd_le (s := {}) (Nat.le_refl 0) (lexemes text)
  rw [foldl_pass_position, lexemes_flatten] at hle
  have hzero : ({} : Scan).position = 0 := rfl
  rw [hzero, Nat.zero_add] at hle
  exact hle

end Outline

/-! ## Reading -/

/-- A position of a text where the reader is in code, some parentheses deep, and no comment opens
across it. -/
structure Cut (text : List UInt8) (position depth : Nat) : Prop where
  le : position ≤ text.length
  reads : ({} : Reader).after (text.take position) = ⟨.code, depth⟩
  splits : Reader.Splits (text.take position) (text.drop position)

/-- A scan has passed the one text and stands in front of the other. -/
inductive Scan.Reaches : List UInt8 → List UInt8 → Scan → Prop
  | start {text : List UInt8} : Reaches [] text {}
  | pass {passed r rest : List UInt8} {b : UInt8} {x : Lexeme} {s : Scan}
      (h : Reaches passed (b :: r) s) (hx : Lexeme.Begins b r x rest) :
      Reaches (passed ++ x.text) rest (s.pass x)

namespace Scan

variable {passed rest text : List UInt8} {s : Scan} {w : Word}

theorem Reaches.position_eq (h : Reaches passed rest s) : s.position = passed.length := by
  induction h with
  | start => rfl
  | pass _ _ ih => rw [pass_position, ih, List.length_append]

/-- A lexeme ends where the text ends that is passed with it. -/
theorem Reaches.stop_eq (h : Reaches passed rest s) (x : Lexeme) :
    s.position + x.text.length = (passed ++ x.text).length := by
  rw [h.position_eq, List.length_append]

theorem Reaches.codeEnd_le (h : Reaches passed rest s) : s.codeEnd ≤ s.position := by
  induction h with
  | start => exact Nat.le_refl 0
  | pass _ _ ih => exact codeEnd_pass_le ih

theorem Reaches.afterPoint_eq (h : Reaches passed rest s) :
    s.afterPoint = (passed.getLast? == some Ascii.point) := by
  cases h with
  | start => rfl
  | pass _ hx =>
    rw [List.getLast?_append_of_ne_nil _ hx.ne_nil]
    rfl

theorem depthBehind_of_not_isCode {x : Lexeme} (h : s.isCode x = false) :
    x.depthBehind s.depth = s.depth := by
  unfold isCode at h
  unfold Lexeme.depthBehind
  split at h <;> simp_all

theorem kind_ne_comment_of_isCode {x : Lexeme} (h : s.isCode x = true) : x.kind ≠ .comment := by
  intro hkind
  simp [isCode, hkind] at h

/-- As far as something is left to read, the scan knows the depth that the reader has. -/
def Agrees (passed rest : List UInt8) (s : Scan) : Prop :=
  ∀ v, v <+: rest → v ≠ [] →
    ({} : Reader).after (passed ++ v) = (⟨.code, s.depth⟩ : Reader).after v

/-- The scan and the reader agree in front of every lexeme: the lexemes passed are closed, since
something follows them. -/
theorem Reaches.agrees (h : Reaches passed rest s) : Agrees passed rest s := by
  induction h with
  | start =>
    intro v _ _
    rfl
  | @pass passed r rest b x s h hx ih =>
    intro v hv hne
    have hrest : rest ≠ [] := by
      rintro rfl
      exact hne (List.prefix_nil.1 hv)
    have hprefix : x.text ++ v <+: b :: r := by
      rw [← hx.append]
      exact List.prefix_append_right_inj x.text |>.2 hv
    rw [List.append_assoc, ih (x.text ++ v) hprefix (by simp [hne]),
      hx.after (hx.isClosed hrest) hv fun _ => hne]
    rfl

/-- Where nothing is left to read, the last lexeme is closed if the text closes its quotes. -/
theorem Reaches.isClosed {x : Lexeme} {b : UInt8} {r : List UInt8}
    (h : Reaches passed (b :: r) s) (hx : Lexeme.Begins b r x rest)
    (hquotes : rest = [] → ClosesQuotes (passed ++ x.text)) : x.IsClosed := by
  by_cases hrest : rest = []
  · intro _ q hq
    have htext : x.text = b :: r := by rw [← hx.append, hrest, List.append_nil]
    refine hquotes hrest q ?_
    rw [htext, h.agrees (b :: r) List.prefix_rfl (List.cons_ne_nil b r), ← htext, ← hq]
    exact Reader.mode_after rfl
  · exact hx.isClosed hrest

/-- The end of the code passed so far is a cut at the depth of the scan. -/
theorem Reaches.cut (h : Reaches passed rest s) (hquotes : rest = [] → ClosesQuotes passed) :
    Cut (passed ++ rest) s.codeEnd s.depth := by
  induction h with
  | start => exact ⟨Nat.zero_le _, rfl, Reader.splits_of_last (by simp)⟩
  | @pass passed r rest b x s h hx ih =>
    by_cases hcode : s.isCode x = true
    · -- the code now ends with the lexeme
      have hkind := kind_ne_comment_of_isCode hcode
      have hend : (s.pass x).codeEnd = (passed ++ x.text).length := by
        rw [codeEnd_pass_of_isCode hcode, h.stop_eq]
      have hreads := hx.after (d := s.depth) (h.isClosed hx hquotes) List.nil_prefix
        fun hcomment => absurd hcomment hkind
      rw [List.append_nil, Reader.after_nil] at hreads
      refine ⟨?_, ?_, ?_⟩
      · rw [hend]
        exact (List.prefix_append _ rest).length_le
      · rw [hend, List.take_left' rfl, h.agrees x.text hx.text_prefix hx.ne_nil, hreads]
        rfl
      · rw [hend, List.take_left' rfl, List.drop_left' rfl]
        intro a ha c hc
        rw [List.getLast?_append_of_ne_nil _ hx.ne_nil] at ha
        exact hx.splits hkind a ha c hc
    · have hcut := ih fun hnil => absurd hnil (List.cons_ne_nil b r)
      rw [hx.append_append, codeEnd_pass_of_not_isCode hcode, pass_depth,
        depthBehind_of_not_isCode (by simpa using hcode)]
      exact hcut

theorem Reaches.depth_eq (h : Reaches passed rest s) :
    (({} : Reader).after passed).depth = s.depth := by
  cases h with
  | start => rfl
  | @pass passed r rest b x s h hx =>
    rw [h.agrees x.text hx.text_prefix hx.ne_nil, hx.depth_after]
    rfl

/-- What is no code and directly follows code starts neither a word nor a quoted run. -/
theorem Reaches.gap (h : Reaches passed rest s) (hlt : s.codeEnd < s.position) :
    ∀ b ∈ ((passed ++ rest).drop s.codeEnd).head?,
      Lexeme.isWordByte b = false ∧ Lexeme.isQuote b = false := by
  induction h with
  | start => exact absurd hlt (Nat.lt_irrefl 0)
  | @pass passed r rest b x s h hx ih =>
    by_cases hcode : s.isCode x = true
    · rw [codeEnd_pass_of_isCode hcode, pass_position] at hlt
      exact absurd hlt (Nat.lt_irrefl _)
    · rw [hx.append_append, codeEnd_pass_of_not_isCode hcode]
      rcases Nat.lt_or_eq_of_le h.codeEnd_le with hlt' | heq
      · exact ih hlt'
      · rw [heq, h.position_eq, List.drop_left' rfl]
        intro c hc
        obtain rfl : b = c := by simpa using hc
        cases hx with
        | quoted hquote => simp [isCode] at hcode
        | line => decide
        | block => decide
        | word hword => simp [isCode] at hcode
        | single hquote _ _ hword => exact ⟨hword, hquote⟩

/-- The words that a scan finds are lexemes it comes to. -/
theorem Reaches.of_mem_words (h : Reaches passed rest s) (hw : w ∈ s.words (lexemes rest)) :
    ∃ (passed' r rest' : List UInt8) (b : UInt8) (x : Lexeme) (s' : Scan),
      passed' ++ b :: r = passed ++ rest ∧ Reaches passed' (b :: r) s' ∧
        Lexeme.Begins b r x rest' ∧ s'.word? x = some w := by
  fun_induction lexemes rest generalizing passed s with
  | case1 => cases hw
  | case2 b r ih =>
    have hx := Lexeme.begins_first b r
    rcases List.mem_append.1 hw with hw | hw
    · exact ⟨passed, r, _, b, _, s, rfl, h, hx, Option.mem_toList.1 hw⟩
    · obtain ⟨passed', r', rest', b', x', s', htext, hreaches, hx', hword⟩ := ih (h.pass hx) hw
      rw [hx.append_append] at htext
      exact ⟨passed', r', rest', b', x', s', htext, hreaches, hx', hword⟩

/-- The end of a text is where every scan of it comes to. -/
theorem Reaches.to_end (h : Reaches passed rest s) :
    Reaches (passed ++ rest) [] ((lexemes rest).foldl Scan.pass s) := by
  fun_induction lexemes rest generalizing passed s with
  | case1 =>
    rw [List.append_nil]
    exact h
  | case2 b r ih =>
    have hx := Lexeme.begins_first b r
    have hend := ih (h.pass hx)
    rwa [hx.append_append] at hend

end Scan

namespace Outline

variable {text : List UInt8} {w : Word}

theorem reaches_word (hw : w ∈ (Outline.of text).words) :
    ∃ (passed r rest : List UInt8) (b : UInt8) (x : Lexeme) (s : Scan),
      passed ++ b :: r = text ∧ Scan.Reaches passed (b :: r) s ∧ Lexeme.Begins b r x rest ∧
        s.word? x = some w :=
  Scan.Reaches.start.of_mem_words hw

theorem reaches_end (text : List UInt8) :
    Scan.Reaches text [] ((lexemes text).foldl Scan.pass {}) :=
  Scan.Reaches.start.to_end

theorem cut_before (hw : w ∈ (Outline.of text).words) : Cut text w.before 0 := by
  obtain ⟨passed, r, rest, b, x, s, rfl, hreaches, hx, hword⟩ := reaches_word hw
  obtain ⟨-, hdepth, -, rfl⟩ := Scan.word?_eq_some hword
  have hcut := hreaches.cut fun hnil => absurd hnil (List.cons_ne_nil b r)
  rwa [hdepth] at hcut

theorem cut_stop (hw : w ∈ (Outline.of text).words) : Cut text w.stop 0 := by
  obtain ⟨passed, r, rest, b, x, s, rfl, hreaches, hx, hword⟩ := reaches_word hw
  obtain ⟨hkind, hdepth, -, rfl⟩ := Scan.word?_eq_some hword
  -- a word is closed wherever it ends
  have hclosed : ClosesQuotes (passed ++ x.text) := by
    have hreads := hx.after (d := s.depth) (by simp [Lexeme.IsClosed, hkind]) List.nil_prefix
      (by simp [hkind])
    rw [List.append_nil, Reader.after_nil] at hreads
    rw [ClosesQuotes, hreaches.agrees x.text hx.text_prefix hx.ne_nil, hreads]
    simp
  have hcut := (hreaches.pass hx).cut fun _ => hclosed
  rw [hx.append_append, Scan.codeEnd_pass_of_word hkind, Scan.pass_depth] at hcut
  simpa [Lexeme.depthBehind, hkind, hdepth] using hcut

theorem cut_codeEnd (hbalanced : Balanced text) : Cut text (Outline.of text).codeEnd 0 := by
  have hend := reaches_end text
  have hcut := hend.cut fun _ => hbalanced.quotes
  rw [← hend.depth_eq, hbalanced.parens, List.append_nil] at hcut
  exact hcut

end Outline

end Listing
