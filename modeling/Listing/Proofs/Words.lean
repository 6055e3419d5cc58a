import Listing.Proofs.Seams
import Mathlib.Data.List.TakeWhile

/-!
# The words of a text in parts

Which words a text has at its top level, told from its parts. Two texts at a `Seam` have the words
of both (`topWords_append`). What stands in parentheses has none (`topWords_parens`).

The places that a site takes from the outline of its base statement are seams of that statement
(`Outline.joint_before`, `Outline.joint_stop`, `Outline.joint_codeEnd`), and the words between two
of them are the words of what stands there (`Outline.topWords_between`).
-/

namespace Listing

open Text

/-! ## Single words and parentheses -/

theorem lexemes_of_isWord {u : List UInt8} (h : IsWord u) : lexemes u = [⟨.word, u⟩] := by
  obtain ⟨b, r, rfl⟩ := List.exists_cons_of_ne_nil h.ne_nil
  have hr : ∀ a ∈ r, Lexeme.isWordByte a = true := fun a ha => h.all a (List.mem_cons_of_mem b ha)
  have hbegins := Lexeme.Begins.word (r := r) (h.all b List.mem_cons_self)
  rw [List.takeWhile_eq_self_iff.2 hr, List.dropWhile_eq_nil_iff.2 hr] at hbegins
  rw [lexemes_cons, hbegins.first_eq, lexemes_nil]

theorem topWords_of_isWord {u : List UInt8} (h : IsWord u) : topWords u = [u] := by
  rw [topWords, Outline.of, lexemes_of_isWord h]
  rfl

/-- A word in front of a text is a word by itself, or the start of the first word of the text. -/
theorem topWords_word_append {u : List UInt8} (h : IsWord u) (v : List UInt8) :
    topWords (u ++ v) = u :: topWords v ∨
      ∃ t ts, topWords v = t :: ts ∧ topWords (u ++ v) = (u ++ t) :: ts := by
  have hend : ∀ b ∈ (v.dropWhile Lexeme.isWordByte).head?, Lexeme.isWordByte b = false := by
    intro b hb
    have hnot := List.head?_dropWhile_not Lexeme.isWordByte v
    rw [Option.mem_def.1 hb] at hnot
    simpa using hnot
  have hsplit := List.takeWhile_append_dropWhile (p := Lexeme.isWordByte) (l := v)
  have hword : ∀ b ∈ v.takeWhile Lexeme.isWordByte, Lexeme.isWordByte b = true :=
    fun b hb => List.all_eq_true.1 List.all_takeWhile b hb
  have hsingle {t : List UInt8} (ht : IsWord t) :
      topWords (t ++ v.dropWhile Lexeme.isWordByte) =
        t :: topWords (v.dropWhile Lexeme.isWordByte) := by
    rw [topWords_append (Reader.after_of_isPlain ht.isPlain) (.of_isWord ht hend),
      topWords_of_isWord ht]
    rfl
  generalize v.takeWhile Lexeme.isWordByte = t at hsplit hword
  generalize v.dropWhile Lexeme.isWordByte = rest at hsplit hsingle
  subst hsplit
  by_cases hnil : t = []
  · left
    rw [hnil, List.nil_append]
    exact hsingle h
  · right
    have ht : IsWord t := ⟨hnil, hword⟩
    have hut : IsWord (u ++ t) := by
      refine ⟨by simp [h.ne_nil], fun b hb => ?_⟩
      rcases List.mem_append.1 hb with hb | hb
      · exact h.all b hb
      · exact hword b hb
    refine ⟨t, topWords rest, hsingle ht, ?_⟩
    rw [← List.append_assoc]
    exact hsingle hut

/-- No word stands at the top level of a text in parentheses. -/
theorem topWords_parens {u : List UInt8} (h : Reader.Neutral u) :
    topWords (Ascii.openParen :: u ++ [Ascii.closeParen]) = [] := by
  rw [topWords, List.map_eq_nil_iff]
  refine List.eq_nil_iff_forall_not_mem.2 fun w hw => ?_
  obtain ⟨passed, r, rest, b, x, s, htext, hreaches, hx, hword⟩ := Outline.reaches_word hw
  obtain ⟨hkind, hzero, -, -⟩ := Scan.word?_eq_some hword
  have hdepth := hreaches.depth_eq
  rw [hzero] at hdepth
  have hb := hx.starts_word hkind
  cases passed with
  | nil =>
    obtain ⟨rfl, -⟩ := List.cons_eq_cons.1 htext
    exact absurd hb (by decide)
  | cons a v =>
    obtain ⟨rfl, hv⟩ := List.cons_eq_cons.1 htext
    -- the reader is one deeper than it would be in `u` alone, so it is not at the top level
    have hprefix : v <+: u := by
      rcases List.append_eq_append_iff.1 hv with ⟨t, rfl, -⟩ | ⟨t, rfl, ht⟩
      · exact List.prefix_append v t
      · cases t with
        | nil =>
          exact ⟨[], by simp⟩
        | cons c t => simp at ht
    obtain ⟨t, rfl⟩ := hprefix
    have hnested := Reader.nested_of_append h.nested
    have hopen : Reader.Splits [Ascii.openParen] v := Reader.splits_of_last (by decide)
    have hdeep := Reader.after_deepen (n := 1) hnested
    rw [← List.singleton_append, Reader.after_append hopen] at hdepth
    have hstep : ({} : Reader).after [Ascii.openParen] = ({} : Reader).deepen 1 := rfl
    rw [hstep, hdeep] at hdepth
    simp [Reader.deepen] at hdepth

/-! ## Seams of a statement -/

theorem Lexeme.Begins.isWord {b : UInt8} {r rest : List UInt8} {x : Lexeme}
    (h : Begins b r x rest) (hkind : x.kind = .word) : IsWord x.text := by
  refine ⟨h.ne_nil, fun a ha => ?_⟩
  cases h with
  | quoted => cases hkind
  | line => cases hkind
  | block => cases hkind
  | word hword =>
    rcases List.mem_cons.1 ha with rfl | ha
    · exact hword
    · exact List.all_eq_true.1 List.all_takeWhile a ha
  | single =>
    simp only [singleKind] at hkind
    repeat' split at hkind
    all_goals cases hkind

/-- The code that a scan has passed is apart from what follows it. -/
theorem Scan.Reaches.apart {passed rest : List UInt8} {s : Scan} (h : Reaches passed rest s) :
    Lexeme.Apart ((passed ++ rest).take s.codeEnd) ((passed ++ rest).drop s.codeEnd) := by
  induction h with
  | start =>
    intro a ha
    cases ha
  | @pass passed r rest b x s h hx ih =>
    by_cases hcode : s.isCode x = true
    · rw [codeEnd_pass_of_isCode hcode, h.stop_eq, List.take_left' rfl, List.drop_left' rfl]
      intro a ha
      rw [List.getLast?_append_of_ne_nil _ hx.ne_nil] at ha
      exact hx.apart (kind_ne_comment_of_isCode hcode) a ha
    · rw [codeEnd_pass_of_not_isCode hcode, hx.append_append]
      exact ih

/-- A position at the top level of a text where the text comes apart into two. -/
structure Joint (text : List UInt8) (position : Nat) : Prop where
  cut : Cut text position 0
  seam : Seam (text.take position) (text.drop position)

theorem Joint.seam_between {text : List UInt8} {a b : Nat} (h : Joint text a) :
    Seam (text.take a) ((text.take b).drop a) := by
  have hhead : ∀ x ∈ ((text.take b).drop a).head?, x ∈ (text.drop a).head? := by
    intro x hx
    rw [List.drop_take, List.head?_take] at hx
    split at hx
    · cases hx
    · exact hx
  exact ⟨fun x hx y hy => h.seam.apart x hx y (hhead y hy),
    fun x hx hpoint y hy => h.seam.point x hx hpoint y (hhead y hy)⟩

namespace Outline

variable {text : List UInt8} {w : Word} {a b c : Nat}

theorem joint_zero (text : List UInt8) : Joint text 0 :=
  ⟨⟨Nat.zero_le _, rfl, Reader.splits_of_last (by simp)⟩, ⟨by simp [Lexeme.Apart], by simp⟩⟩

theorem joint_before (hw : w ∈ (Outline.of text).words) : Joint text w.before := by
  refine ⟨cut_before hw, ?_⟩
  obtain ⟨passed, r, rest, b, x, s, rfl, hreaches, hx, hword⟩ := reaches_word hw
  obtain ⟨-, -, hpoint, rfl⟩ := Scan.word?_eq_some hword
  refine ⟨hreaches.apart, ?_⟩
  rcases Nat.lt_or_eq_of_le hreaches.codeEnd_le with hlt | heq
  · intro _ _ _ b hb
    exact (hreaches.gap hlt b hb).1
  · intro a ha hpoint'
    rw [hreaches.afterPoint_eq] at hpoint
    simp only [heq, hreaches.position_eq, List.take_left'] at ha
    rw [Option.mem_def.1 ha, hpoint'] at hpoint
    simp at hpoint

theorem joint_stop (hw : w ∈ (Outline.of text).words) : Joint text w.stop := by
  refine ⟨cut_stop hw, ?_⟩
  obtain ⟨passed, r, rest, b, x, s, rfl, hreaches, hx, hword⟩ := reaches_word hw
  obtain ⟨hkind, -, -, rfl⟩ := Scan.word?_eq_some hword
  have hapart := (hreaches.pass hx).apart
  rw [Scan.codeEnd_pass_of_word hkind, hx.append_append] at hapart
  refine ⟨hapart, fun a ha hpoint => ?_⟩
  dsimp only at ha
  rw [hreaches.stop_eq, ← hx.append_append, List.take_left' rfl,
    List.getLast?_append_of_ne_nil _ hx.ne_nil] at ha
  have hbyte := (hx.isWord hkind).all a (List.mem_of_getLast? ha)
  rw [hpoint] at hbyte
  cases hbyte

theorem joint_codeEnd (hbalanced : Balanced text) : Joint text (Outline.of text).codeEnd := by
  have hend := reaches_end text
  have hapart := hend.apart
  rw [List.append_nil] at hapart
  refine ⟨cut_codeEnd hbalanced, hapart, fun _ _ _ b hb => ?_⟩
  rcases Nat.lt_or_eq_of_le hend.codeEnd_le with hlt | heq
  · have hgap := hend.gap hlt
    rw [List.append_nil] at hgap
    exact (hgap b hb).1
  · have hnil : text.drop (Outline.of text).codeEnd = [] := by
      change text.drop ((lexemes text).foldl Scan.pass {}).codeEnd = []
      rw [heq, hend.position_eq, List.drop_length]
    rw [hnil] at hb
    cases hb

/-- The words of a text lie on the two sides of a joint. -/
theorem words_split (h : Joint text b) :
    ∃ V W, (Outline.of text).words = V ++ W ∧ V = (Outline.of (text.take b)).words ∧
      W.map (·.text) = topWords (text.drop b) ∧ (∀ w ∈ V, w.stop ≤ b) ∧ ∀ w ∈ W, b ≤ w.start := by
  have hwords := words_append h.cut.reads h.seam
  rw [List.take_append_drop] at hwords
  have hlength : (text.take b).length = b := List.length_take_of_le h.cut.le
  refine ⟨_, _, hwords, rfl, texts_behind _ _ _, fun w hw => ?_, fun w hw => ?_⟩
  · have hstop := (word_bounds hw).2.2
    have hle := codeEnd_le (text.take b)
    omega
  · obtain ⟨v, -, rfl⟩ := List.mem_map.1 hw
    simp only [Word.behind, hlength]
    omega

theorem wordsBetween_append (hb : Joint text b) (hab : a ≤ b) (hbc : b ≤ c) :
    (Outline.of text).wordsBetween a c =
      (Outline.of text).wordsBetween a b ++ (Outline.of text).wordsBetween b c := by
  obtain ⟨V, W, hwords, -, -, hV, hW⟩ := words_split hb
  have hbounds : ∀ w ∈ V ++ W, w.start < w.stop := by
    rw [← hwords]
    exact fun w hw => (word_bounds hw).2.1
  have hboundsV : ∀ w ∈ V, w.start < w.stop := fun w hw => hbounds w (List.mem_append_left W hw)
  have hboundsW : ∀ w ∈ W, w.start < w.stop := fun w hw => hbounds w (List.mem_append_right V hw)
  unfold wordsBetween
  rw [hwords, List.filter_append, List.filter_append, List.filter_append]
  have h₁ : V.filter (fun w => a ≤ w.start ∧ w.stop ≤ c) =
      V.filter fun w => a ≤ w.start ∧ w.stop ≤ b := by
    refine List.filter_congr fun w hw => ?_
    have := hV w hw
    simp only [decide_eq_decide]
    omega
  have h₂ : V.filter (fun w => b ≤ w.start ∧ w.stop ≤ c) = [] := by
    refine List.filter_eq_nil_iff.2 fun w hw => ?_
    have := hV w hw
    have := hboundsV w hw
    simp only [decide_eq_true_eq]
    omega
  have h₃ : W.filter (fun w => a ≤ w.start ∧ w.stop ≤ b) = [] := by
    refine List.filter_eq_nil_iff.2 fun w hw => ?_
    have := hW w hw
    have := hboundsW w hw
    simp only [decide_eq_true_eq]
    omega
  have h₄ : W.filter (fun w => a ≤ w.start ∧ w.stop ≤ c) =
      W.filter fun w => b ≤ w.start ∧ w.stop ≤ c := by
    refine List.filter_congr fun w hw => ?_
    have := hW w hw
    simp only [decide_eq_decide]
    omega
  rw [h₁, h₂, h₃, h₄, List.append_nil, List.nil_append]

theorem wordsBetween_all (text : List UInt8) :
    (Outline.of text).wordsBetween 0 (Outline.of text).codeEnd = (Outline.of text).words := by
  refine List.filter_eq_self.2 fun w hw => decide_eq_true ?_
  exact ⟨Nat.zero_le _, (word_bounds hw).2.2⟩

/-- The words between two joints are the words of what lies between them, further back. -/
theorem wordsBetween_eq (ha : Joint text a) (hb : Joint text b) (hab : a ≤ b) :
    (Outline.of text).wordsBetween a b = (Outline.of ((text.take b).drop a)).words.map
      (Word.behind a (Outline.of (text.take a)).codeEnd) := by
  obtain ⟨V, W, hwords, hV, -, hstop, hstart⟩ := words_split hb
  have hlength : (text.take a).length = a := List.length_take_of_le ha.cut.le
  have hsplit := words_append ha.cut.reads (ha.seam_between (b := b))
  rw [← Cut.take_eq hab, ← hV, hlength] at hsplit
  have hws : (Outline.of text).words = (Outline.of (text.take a)).words ++
      ((Outline.of ((text.take b).drop a)).words.map
        (Word.behind a (Outline.of (text.take a)).codeEnd) ++ W) := by
    rw [hwords, hsplit, List.append_assoc]
  have hbounds := fun v (hv : v ∈ (Outline.of text).words) => word_bounds hv
  rw [wordsBetween, hws, List.filter_append, List.filter_append]
  have h₁ : (Outline.of (text.take a)).words.filter (fun w => a ≤ w.start ∧ w.stop ≤ b) = [] := by
    refine List.filter_eq_nil_iff.2 fun w hw => ?_
    have := word_bounds hw
    have := codeEnd_le (text.take a)
    simp only [decide_eq_true_eq]
    omega
  have h₂ : ((Outline.of ((text.take b).drop a)).words.map
      (Word.behind a (Outline.of (text.take a)).codeEnd)).filter
        (fun w => a ≤ w.start ∧ w.stop ≤ b) = (Outline.of ((text.take b).drop a)).words.map
          (Word.behind a (Outline.of (text.take a)).codeEnd) := by
    refine List.filter_eq_self.2 fun w hw => decide_eq_true ⟨?_, hstop w ?_⟩
    · obtain ⟨v, -, rfl⟩ := List.mem_map.1 hw
      exact Nat.le_add_right _ _
    · rw [hsplit]
      exact List.mem_append_right _ hw
  have h₃ : W.filter (fun w => a ≤ w.start ∧ w.stop ≤ b) = [] := by
    refine List.filter_eq_nil_iff.2 fun w hw => ?_
    have := hbounds w (by simp [hws, hw])
    have := hstart w hw
    simp only [decide_eq_true_eq]
    omega
  rw [h₁, h₂, h₃, List.append_nil, List.nil_append]

theorem topWords_between (ha : Joint text a) (hb : Joint text b) (hab : a ≤ b) :
    topWords ((text.take b).drop a) = ((Outline.of text).wordsBetween a b).map (·.text) := by
  rw [wordsBetween_eq ha hb hab, texts_behind]
  rfl

/-- In front of a word stands what is no code, or the word follows the code before it directly. -/
theorem head_of_before_lt (hw : w ∈ (Outline.of text).words) (hlt : w.before < w.start) :
    ∀ b ∈ (text.drop w.before).head?, Lexeme.isWordByte b = false := by
  obtain ⟨passed, r, rest, b, x, s, rfl, hreaches, hx, hword⟩ := reaches_word hw
  obtain ⟨-, -, -, rfl⟩ := Scan.word?_eq_some hword
  exact fun b hb => (hreaches.gap hlt b hb).1

/-- A word is what stands between its start and its end. -/
theorem word_text (hw : w ∈ (Outline.of text).words) :
    (text.take w.stop).drop w.start = w.text ∧ IsWord w.text := by
  obtain ⟨passed, r, rest, b, x, s, rfl, hreaches, hx, hword⟩ := reaches_word hw
  obtain ⟨hkind, -, -, rfl⟩ := Scan.word?_eq_some hword
  refine ⟨?_, hx.isWord hkind⟩
  dsimp only
  rw [← hx.append_append, hreaches.stop_eq, List.take_left' rfl, hreaches.position_eq,
    List.drop_left' rfl]

/-- A text that ends with a word may be followed by what continues none. -/
theorem seam_of_word {v : List UInt8} (hw : w ∈ (Outline.of text).words)
    (hstop : w.stop = text.length) (hv : ∀ b ∈ v.head?, Lexeme.isWordByte b = false) :
    Seam text v := by
  obtain ⟨htext, hword⟩ := word_text hw
  rw [hstop, List.take_length] at htext
  refine (Seam.of_isWord hword hv).congr_last ?_
  have hne := hword.ne_nil
  rw [← htext] at hne ⊢
  conv => lhs; rw [← List.take_append_drop w.start text]
  rw [List.getLast?_append_of_ne_nil _ hne]

/-- The words of a stretch are those between its two ends. -/
theorem wordsBetween_of_append {A M B : List Word} (hws : (Outline.of text).words = A ++ (M ++ B))
    (hA : ∀ v ∈ A, v.stop ≤ a) (hM : ∀ v ∈ M, a ≤ v.start ∧ v.stop ≤ b)
    (hB : ∀ v ∈ B, b ≤ v.before) : (Outline.of text).wordsBetween a b = M := by
  have hbounds := fun v (hv : v ∈ (Outline.of text).words) => word_bounds hv
  rw [hws] at hbounds
  have h₁ : A.filter (fun v => a ≤ v.start ∧ v.stop ≤ b) = [] := by
    refine List.filter_eq_nil_iff.2 fun v hv => ?_
    have := hA v hv
    have := hbounds v (List.mem_append_left _ hv)
    simp only [decide_eq_true_eq]
    omega
  have h₂ : M.filter (fun v => a ≤ v.start ∧ v.stop ≤ b) = M :=
    List.filter_eq_self.2 fun v hv => decide_eq_true (hM v hv)
  have h₃ : B.filter (fun v => a ≤ v.start ∧ v.stop ≤ b) = [] := by
    refine List.filter_eq_nil_iff.2 fun v hv => ?_
    have := hB v hv
    have := hbounds v (by simp [hv])
    simp only [decide_eq_true_eq]
    omega
  rw [wordsBetween, hws, List.filter_append, List.filter_append, h₁, h₂, h₃, List.append_nil,
    List.nil_append]

theorem wordsBetween_word (hw : w ∈ (Outline.of text).words) :
    (Outline.of text).wordsBetween w.before w.stop = [w] := by
  obtain ⟨A, B, hws⟩ := List.append_of_mem hw
  have hwb := word_bounds hw
  refine wordsBetween_of_append (M := [w]) (B := B) hws (fun v hv => stop_le_of_mem_front hws hv)
    ?_ fun v hv => le_before_of_mem_back hws hv
  simp only [List.mem_singleton, forall_eq]
  omega

theorem wordsBetween_pair {A B : List Word} {v : Word}
    (hws : (Outline.of text).words = A ++ w :: v :: B) :
    (Outline.of text).wordsBetween w.before v.stop = [w, v] := by
  have hw : w ∈ (Outline.of text).words := by simp [hws]
  have hv : v ∈ (Outline.of text).words := by simp [hws]
  have hwb := word_bounds hw
  have hvb := word_bounds hv
  have hle := le_before_of_mem_back hws List.mem_cons_self
  have hsplit : (Outline.of text).words = (A ++ [w]) ++ v :: B := by simp [hws]
  refine wordsBetween_of_append (M := [w, v]) (B := B) hws
    (fun u hu => stop_le_of_mem_front hws hu) ?_ fun u hu => le_before_of_mem_back hsplit hu
  simp only [List.mem_cons, List.not_mem_nil, or_false, forall_eq_or_imp, forall_eq]
  omega

/-- A text that is cut behind one of its words has the words up to there. -/
theorem words_take_stop {A B : List Word} (hws : (Outline.of text).words = A ++ w :: B) :
    (Outline.of (text.take w.stop)).words = A ++ [w] := by
  have hw : w ∈ (Outline.of text).words := by simp [hws]
  obtain ⟨V, W, hwords, hV, -, hfront, hback⟩ := words_split (joint_stop hw)
  have hbounds := fun v (hv : v ∈ (Outline.of text).words) => word_bounds hv
  -- both are what a filter by the end of the words leaves
  have hleft : (Outline.of text).words.filter (·.stop ≤ w.stop) = V := by
    have hnone : W.filter (·.stop ≤ w.stop) = [] := by
      refine List.filter_eq_nil_iff.2 fun v hv => ?_
      have := hback v hv
      have := hbounds v (by simp [hwords, hv])
      simp only [decide_eq_true_eq]
      omega
    rw [hwords, List.filter_append, hnone, List.append_nil]
    exact List.filter_eq_self.2 fun v hv => decide_eq_true (hfront v hv)
  have hright : (Outline.of text).words.filter (·.stop ≤ w.stop) = A ++ [w] := by
    have hself : A.filter (·.stop ≤ w.stop) = A := by
      refine List.filter_eq_self.2 fun v hv => decide_eq_true ?_
      have := stop_le_of_mem_front hws hv
      have := hbounds w hw
      omega
    have hnone : B.filter (·.stop ≤ w.stop) = [] := by
      refine List.filter_eq_nil_iff.2 fun v hv => ?_
      have := le_before_of_mem_back hws hv
      have := hbounds v (by simp [hws, hv])
      simp only [decide_eq_true_eq]
      omega
    rw [hws, List.filter_append, List.filter_cons, hself, hnone,
      if_pos (decide_eq_true (Nat.le_refl _))]
  rw [← hV, ← hleft, hright]

/-! ## Texts of words -/

/-- The texts of the words between two positions. -/
def textsBetween (text : List UInt8) (a b : Nat) : List (List UInt8) :=
  ((Outline.of text).wordsBetween a b).map (·.text)

theorem mem_textsBetween {t : List UInt8} : t ∈ textsBetween text a b ↔
    ∃ w ∈ (Outline.of text).words, a ≤ w.start ∧ w.stop ≤ b ∧ w.text = t := by
  simp only [textsBetween, List.mem_map, mem_wordsBetween, and_assoc]

theorem textsBetween_append (hb : Joint text b) (hab : a ≤ b) (hbc : b ≤ c) :
    textsBetween text a c = textsBetween text a b ++ textsBetween text b c := by
  rw [textsBetween, wordsBetween_append hb hab hbc, List.map_append]
  rfl

/-- The texts of the words between two joints are those of what lies between them. -/
theorem topWords_stretch (ha : Joint text a) (hb : Joint text b) (hab : a ≤ b) :
    topWords ((text.take b).drop a) = textsBetween text a b :=
  topWords_between ha hb hab

theorem textsBetween_self (text : List UInt8) (a : Nat) : textsBetween text a a = [] := by
  rw [textsBetween, List.map_eq_nil_iff, wordsBetween]
  refine List.filter_eq_nil_iff.2 fun v hv => ?_
  have := word_bounds hv
  simp only [decide_eq_true_eq]
  omega

/-- The words from a word on are the word and those behind it. -/
theorem textsBetween_before (hw : w ∈ (Outline.of text).words) :
    textsBetween text w.before (Outline.of text).codeEnd =
      w.text :: textsBetween text w.stop (Outline.of text).codeEnd := by
  have hbounds := word_bounds hw
  rw [textsBetween_append (joint_stop hw) (b := w.stop) (by omega) hbounds.2.2]
  conv => lhs; rw [textsBetween, wordsBetween_word hw]
  rfl

end Outline

/-! ## Words of a text with insertions -/

namespace Edit

open Outline

/-- Whether the text of an edit starts with a separator. -/
def Parted (e : Edit) : Prop := ∃ b ∈ (bytes e.text).head?, isSeparator b = true

variable {text : List UInt8} {cursor a stop : Nat} {e : Edit} {es : List Edit}

theorem weave_split (hle : cursor ≤ a) (hstop : a ≤ stop) (hes : ∀ e ∈ es, a ≤ e.position) :
    weave (text.take stop) cursor es =
      (text.take a).drop cursor ++ weave (text.take stop) a es := by
  have hsplit (b : Nat) (hab : a ≤ b) :
      (text.take b).drop cursor = (text.take a).drop cursor ++ (text.take b).drop a := by
    by_cases hlength : a ≤ text.length
    · rw [Cut.take_eq hab, List.drop_append, List.length_take, Nat.min_eq_left hlength,
        Nat.sub_eq_zero_of_le hle, List.drop_zero,
        List.drop_left' (by rw [List.length_take, Nat.min_eq_left hlength])]
    · have htake : text.take a = text := List.take_of_length_le (by omega)
      have htake' : text.take b = text := List.take_of_length_le (by omega)
      rw [htake, htake', List.drop_eq_nil_of_le (Nat.le_of_not_le hlength), List.append_nil]
  cases es with
  | nil => exact hsplit stop hstop
  | cons e es =>
    have hcut := hsplit (min e.position stop) (by
      have := hes e List.mem_cons_self
      omega)
    rw [weave, weave, List.take_take, hcut, List.append_assoc]

/-- Edits up to a position and from there on. -/
theorem weave_append {es' : List Edit} (hle : cursor ≤ a) (hstop : a ≤ stop)
    (hes : ∀ e ∈ es, e.position ≤ a) (hes' : ∀ e ∈ es', a ≤ e.position) :
    weave (text.take stop) cursor (es ++ es') =
      weave (text.take a) cursor es ++ weave (text.take stop) a es' := by
  induction es generalizing cursor with
  | nil => exact weave_split hle hstop hes'
  | cons e es ih =>
    have he := hes e List.mem_cons_self
    rw [List.cons_append, weave, weave, ih he fun e' he' => hes e' (List.mem_cons_of_mem e he'),
      List.take_take, List.take_take, Nat.min_eq_left he, Nat.min_eq_left (Nat.le_trans he hstop)]
    simp only [List.append_assoc]

theorem weave_self (text : List UInt8) (cursor : Nat) (t : String) (es : List Edit) :
    weave text cursor (⟨cursor, t⟩ :: es) = bytes t ++ weave text cursor es := by
  have hnil : (text.take cursor).drop cursor = [] := List.drop_eq_nil_of_le (by
    rw [List.length_take]
    omega)
  rw [weave, hnil, List.nil_append]

/-- A text with edits ends as the last edit does, or as it does without them. -/
theorem getLast?_weave (es : List Edit) (hstop : stop ≤ text.length) (hcursor : cursor ≤ e.position)
    (hle : e.position ≤ stop) (hes : ∀ e' ∈ es, e'.position ≤ e.position)
    (hne : bytes e.text ≠ [])
    (hlast : e.position = stop → ∀ b ∈ (bytes e.text).getLast?, isSeparator b = true) :
    (∀ b ∈ (weave (text.take stop) cursor (es ++ [e])).getLast?, isSeparator b = true) ∨
      (weave (text.take stop) cursor (es ++ [e])).getLast? = (text.take stop).getLast? := by
  have hlength : (text.take stop).length = stop := List.length_take_of_le hstop
  rw [weave_append hcursor hle hes (by simp), weave_self, weave, ← List.append_assoc,
    List.getLast?_append, List.getLast?_drop, hlength]
  rcases Nat.lt_or_eq_of_le hle with hlt | heq
  · have hsome : ∃ b, (text.take stop).getLast? = some b := by
      refine ⟨_, List.getLast?_eq_some_getLast fun hnil => ?_⟩
      rw [hnil, List.length_nil] at hlength
      omega
    obtain ⟨b, hb⟩ := hsome
    rw [if_neg (Nat.not_le_of_lt hlt), hb, Option.some_or]
    exact .inr rfl
  · rw [if_pos (Nat.le_of_eq heq.symm), Option.none_or,
      List.getLast?_append_of_ne_nil _ hne]
    exact .inl (hlast heq)

/-- Where edits follow a joint, their text does not reach back across it. -/
theorem seam_weave (ha : Joint text a) (hes : ∀ e ∈ es, a ≤ e.position ∧ e.Parted) :
    Seam (text.take a) (weave (text.take stop) a es) := by
  cases es with
  | nil => exact ha.seam_between
  | cons e es =>
    obtain ⟨hle, hparted⟩ := hes e List.mem_cons_self
    rw [weave, List.take_take]
    cases hstretch : (text.take (min e.position stop)).drop a with
    | nil =>
      obtain ⟨b, hb, hsep⟩ := hparted
      rw [List.nil_append]
      refine .of_head fun c hc => ?_
      rw [List.head?_append, Option.mem_def.1 hb, Option.some_or, Option.mem_some] at hc
      rwa [← hc]
    | cons b r =>
      have hseam := ha.seam_between (b := min e.position stop)
      rw [hstretch] at hseam
      exact ⟨hseam.apart, hseam.point⟩

theorem topWords_weave_split (hcursor : Joint text cursor) (ha : Joint text a) (hle : cursor ≤ a)
    (hstop : a ≤ stop) (hes : ∀ e ∈ es, a ≤ e.position ∧ e.Parted) :
    topWords (weave (text.take stop) cursor es) =
      textsBetween text cursor a ++ topWords (weave (text.take stop) a es) := by
  have hreads := ha.cut.reads
  rw [Cut.take_eq hle, Reader.after_append hcursor.cut.splits_between, hcursor.cut.reads] at hreads
  have hseam : Seam ((text.take a).drop cursor) (weave (text.take stop) a es) := by
    have hseam : Seam (text.take a) (weave (text.take stop) a es) := seam_weave ha hes
    by_cases hnil : (text.take a).drop cursor = []
    · rw [hnil]
      exact ⟨by simp [Lexeme.Apart], by simp⟩
    · have hlast : (text.take a).getLast? = ((text.take a).drop cursor).getLast? := by
        conv => lhs; rw [Cut.take_eq hle]
        rw [List.getLast?_append_of_ne_nil _ hnil]
      exact hseam.congr_last hlast.symm
  rw [weave_split hle hstop fun e he => (hes e he).1, topWords_append hreads hseam,
    topWords_stretch hcursor ha hle]

end Edit

end Listing
