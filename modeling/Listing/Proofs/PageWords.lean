import Listing.Request.Pagination

/-!
# Pages in machine words

`Pagination` computes with numbers of any size. A server that pages has words: the page and its size
are words of 32 bits, a number that a request gives is a signed word of 64 bits, and offsets and
totals are words of 64 bits. `PageWords` takes the same steps in words, and a step of which the
machine has no exact result is without one: a difference below zero, a product of more than 64 bits,
a division by zero, bounds that are out of order.

`PageWords.ofRequest?_eq`, `PageWords.offset?_eq`, `PageWords.maxPage?_eq`: whatever a request
gives, every step has its result, and the words are the numbers of `Pagination`.
-/

namespace Listing

/-! ## Steps that may have no result -/

namespace Checked

/-- The difference of two words, unless it is below zero. -/
def sub? (a b : UInt32) : Option UInt32 := if b ≤ a then some (a - b) else none

/-- The product of two words, unless it takes more than 64 bits. -/
def mul? (a b : UInt64) : Option UInt64 :=
  if a.toNat * b.toNat < UInt64.size then some (a * b) else none

/-- The quotient of two words, rounded up, unless the divisor is zero. -/
def divCeil? (a b : UInt64) : Option UInt64 :=
  if b = 0 then none else some (if a % b = 0 then a / b else a / b + 1)

/-- The word nearest to another between two bounds, unless these are out of order. -/
def clamp? (a low high : Int64) : Option Int64 :=
  if low ≤ high then some (if a < low then low else if high < a then high else a) else none

/-- A signed word of 64 bits as an unsigned one of 32 bits, unless it is out of range. -/
def narrow? (a : Int64) : Option UInt32 :=
  if 0 ≤ a.toInt ∧ a.toInt < UInt32.size then some (.ofNat a.toInt.toNat) else none

theorem sub?_eq {a b : UInt32} (h : b.toNat ≤ a.toNat) :
    ∃ w, sub? a b = some w ∧ w.toNat = a.toNat - b.toNat := by
  have hle : b ≤ a := UInt32.le_iff_toNat_le.2 h
  exact ⟨a - b, if_pos hle, UInt32.toNat_sub_of_le a b hle⟩

theorem mul?_eq {a b : UInt64} (h : a.toNat * b.toNat < UInt64.size) :
    ∃ w, mul? a b = some w ∧ w.toNat = a.toNat * b.toNat := by
  refine ⟨a * b, if_pos h, ?_⟩
  rw [UInt64.toNat_mul]
  exact Nat.mod_eq_of_lt h

/-- Rounding up by the remainder is rounding down what is one short of a further divisor. -/
theorem div_ceil_eq (a : Nat) {b : Nat} (h : 0 < b) :
    (if a % b = 0 then a / b else a / b + 1) = (a + (b - 1)) / b := by
  have hsplit := Nat.div_add_mod a b
  have hlt := Nat.mod_lt a h
  refine (Nat.div_eq_of_lt_le ?_ ?_).symm
  · split
    · rw [Nat.mul_comm]
      omega
    · rw [Nat.succ_mul, Nat.mul_comm]
      omega
  · split
    · rw [Nat.succ_mul, Nat.mul_comm]
      omega
    · rw [Nat.succ_mul, Nat.succ_mul, Nat.mul_comm]
      omega

theorem divCeil?_eq {a b : UInt64} (h : 0 < b.toNat) :
    ∃ w, divCeil? a b = some w ∧ w.toNat = (a.toNat + (b.toNat - 1)) / b.toNat := by
  have hne : b ≠ 0 := by
    rintro rfl
    exact absurd h (by decide)
  have hzero : a % b = 0 ↔ a.toNat % b.toNat = 0 := by
    rw [← UInt64.toNat_inj, UInt64.toNat_mod]
    rfl
  refine ⟨_, if_neg hne, ?_⟩
  rw [← div_ceil_eq a.toNat h]
  by_cases hmod : a.toNat % b.toNat = 0
  · rw [if_pos (hzero.2 hmod), if_pos hmod, UInt64.toNat_div]
  · -- a remainder leaves room for one more: the divisor is no one, the quotient no greatest word
    have hlt : a.toNat / b.toNat + 1 < 2 ^ 64 := by
      have hle : a.toNat / b.toNat * b.toNat < a.toNat := by
        have := Nat.div_add_mod a.toNat b.toNat
        rw [Nat.mul_comm] at this
        omega
      have hself : a.toNat / b.toNat ≤ a.toNat / b.toNat * b.toNat := Nat.le_mul_of_pos_right _ h
      have := a.toNat_lt
      omega
    rw [if_neg (mt hzero.1 hmod), if_neg hmod, UInt64.toNat_add, UInt64.toNat_div]
    exact Nat.mod_eq_of_lt hlt

theorem clamp?_eq (a : Int64) {low high : Int64} (h : low.toInt ≤ high.toInt) :
    ∃ w, clamp? a low high = some w ∧ w.toInt = min (max a.toInt low.toInt) high.toInt := by
  refine ⟨_, if_pos (Int64.le_iff_toInt_le.2 h), ?_⟩
  by_cases hlow : a < low
  · have hlt := Int64.lt_iff_toInt_lt.1 hlow
    rw [if_pos hlow]
    omega
  have hge := mt Int64.lt_iff_toInt_lt.2 hlow
  by_cases hhigh : high < a
  · have hlt := Int64.lt_iff_toInt_lt.1 hhigh
    rw [if_neg hlow, if_pos hhigh]
    omega
  · have hle := mt Int64.lt_iff_toInt_lt.2 hhigh
    rw [if_neg hlow, if_neg hhigh]
    omega

theorem narrow?_eq {a : Int64} (h : 0 ≤ a.toInt) (hlt : a.toInt < UInt32.size) :
    ∃ w, narrow? a = some w ∧ (w.toNat : Int) = a.toInt := by
  refine ⟨_, if_pos ⟨h, hlt⟩, ?_⟩
  rw [UInt32.toNat_ofNat_of_lt' (by omega)]
  omega

theorem narrow?_eq_none {a : Int64} (h : UInt32.size ≤ a.toInt) : narrow? a = none :=
  if_neg fun hrange => absurd hrange.2 (by omega)

end Checked

/-! ## Pages -/

/-- A page and its size, in words. -/
structure PageWords where
  page : UInt32
  limit : UInt32

namespace PageWords

/-- The signed word that a text gives, trimmed, if it is a numeral within 64 bits. -/
def number? (raw : Option String) : Option Int64 := (Pagination.number? raw).map Int64.ofInt

/-- The page of a request; a word with no 32 bits is the last page. -/
def pageOf (raw : Option String) : UInt32 :=
  match number? raw with
  | some n => if 1 ≤ n then (Checked.narrow? n).getD (.ofNat Pagination.maxPageNumber) else 1
  | none => 1

/-- The page size of a request, between one and the greatest allowed. -/
def limitOf? (config : Config) (raw : Option String) : Option UInt32 :=
  match number? raw with
  | some n => do
    let nearest ← Checked.clamp? n 1 (.ofNat config.maxLimit.toNat)
    return (Checked.narrow? nearest).getD config.maxLimit
  | none => some config.defaultLimit

def ofRequest? (config : Config) (page limit : Option String) : Option PageWords := do
  let limit ← limitOf? config limit
  return ⟨pageOf page, limit⟩

/-- The number of rows before the page. -/
def offset? (w : PageWords) : Option UInt64 := do
  let before ← Checked.sub? w.page 1
  Checked.mul? w.limit.toUInt64 before.toUInt64

/-- The number of pages that a number of rows fills, at least one. -/
def maxPage? (w : PageWords) (total : UInt64) : Option UInt64 :=
  if total = 0 then some 1 else Checked.divCeil? total w.limit.toUInt64

/-- The numbers that the words stand for. -/
def pagination (w : PageWords) : Pagination := ⟨w.page.toNat, w.limit.toNat⟩

variable {config : Config}

/-- A number of 64 bits is read as its word. -/
theorem number?_eq (raw : Option String) :
    Pagination.number? raw = none ∧ number? raw = none ∨
      ∃ n, Pagination.number? raw = some n.toInt ∧ number? raw = some n := by
  unfold number?
  cases hnumber : Pagination.number? raw with
  | none => exact .inl ⟨rfl, rfl⟩
  | some n =>
    obtain ⟨s, -, hs⟩ := Option.bind_eq_some_iff.1 hnumber
    obtain ⟨-, hrange⟩ := Option.filter_eq_some_iff.1 hs
    have hrange := of_decide_eq_true hrange
    have hword : (Int64.ofInt n).toInt = n :=
      Int64.toInt_ofInt_of_le (by omega) (by omega)
    exact .inr ⟨Int64.ofInt n, by rw [hword], rfl⟩

theorem pageOf_eq (raw : Option String) : (pageOf raw).toNat = Pagination.pageOf raw := by
  unfold pageOf Pagination.pageOf
  rcases number?_eq raw with ⟨hnumber, hword⟩ | ⟨n, hnumber, hword⟩
  · rw [hnumber, hword]
    rfl
  rw [hnumber, hword]
  dsimp only
  by_cases hone : 1 ≤ n
  · have hle : 1 ≤ n.toInt := by simpa using Int64.le_iff_toInt_le.1 hone
    have hmax : Pagination.maxPageNumber = UInt32.size - 1 := rfl
    rw [if_pos hone, if_pos hle]
    by_cases hlt : n.toInt < UInt32.size
    · obtain ⟨w, hw, heq⟩ := Checked.narrow?_eq (by omega) hlt
      rw [hw, Option.getD_some]
      omega
    · have hle : UInt32.size ≤ n.toInt := by omega
      rw [Checked.narrow?_eq_none hle, Option.getD_none, UInt32.toNat_ofNat_of_lt' (by decide)]
      omega
  · have hlt : ¬1 ≤ n.toInt := fun hle => hone (Int64.le_iff_toInt_le.2 (by simpa using hle))
    rw [if_neg hone, if_neg hlt]
    rfl

/-- The bounds of a page size are in order, and it fits in its word. -/
theorem limitOf?_eq (config : Config) (raw : Option String) :
    ∃ w, limitOf? config raw = some w ∧ w.toNat = Pagination.limitOf config raw := by
  unfold limitOf? Pagination.limitOf
  rcases number?_eq raw with ⟨hnumber, hword⟩ | ⟨n, hnumber, hword⟩
  · rw [hnumber, hword]
    exact ⟨_, rfl, rfl⟩
  have hone := config.sound.one_le_defaultLimit
  have hle := config.sound.defaultLimit_le_maxLimit
  have hlt := config.maxLimit.toNat_lt
  have hhigh : (Int64.ofNat config.maxLimit.toNat).toInt = config.maxLimit.toNat :=
    Int64.toInt_ofNat_of_lt (by omega)
  have hlow : Int64.toInt 1 = 1 := Int64.toInt_one
  have horder : Int64.toInt 1 ≤ (Int64.ofNat config.maxLimit.toNat).toInt := by omega
  obtain ⟨nearest, hclamp, hnearest⟩ := Checked.clamp?_eq n horder
  have hsize : UInt32.size = 2 ^ 32 := rfl
  obtain ⟨w, hw, heq⟩ := Checked.narrow?_eq (a := nearest) (by omega) (by omega)
  refine ⟨w, ?_, ?_⟩
  · rw [hword]
    simp [hclamp, hw]
  · rw [hnumber]
    dsimp only
    omega

/-- A request has its page and size in words. -/
theorem ofRequest?_eq (config : Config) (page limit : Option String) :
    ∃ w, ofRequest? config page limit = some w ∧
      w.pagination = Pagination.ofRequest config page limit := by
  obtain ⟨w, hw, hlimit⟩ := limitOf?_eq config limit
  refine ⟨⟨pageOf page, w⟩, by simp [ofRequest?, hw], ?_⟩
  rw [pagination, Pagination.ofRequest, pageOf_eq, hlimit]

/-- The product of a size and the number of a page before takes 64 bits at most. -/
theorem offset?_eq {w : PageWords} (h : 1 ≤ w.page.toNat) :
    ∃ o, w.offset? = some o ∧ o.toNat = w.pagination.offset := by
  obtain ⟨before, hbefore, hpage⟩ := Checked.sub?_eq (a := w.page) (b := 1) h
  have hlimit : w.limit.toUInt64.toNat = w.limit.toNat := UInt32.toNat_toUInt64 w.limit
  have hfactor : before.toUInt64.toNat = w.page.toNat - 1 := by
    rw [UInt32.toNat_toUInt64, hpage]
    rfl
  have hfits : w.limit.toUInt64.toNat * before.toUInt64.toNat < UInt64.size := by
    calc
      w.limit.toUInt64.toNat * before.toUInt64.toNat ≤ (2 ^ 32 - 1) * (2 ^ 32 - 1) := by
        apply Nat.mul_le_mul
        · have := w.limit.toNat_lt
          omega
        · have := w.page.toNat_lt
          omega
      _ < UInt64.size := by decide
  obtain ⟨o, ho, hproduct⟩ := Checked.mul?_eq hfits
  refine ⟨o, by simp [offset?, hbefore, ho], ?_⟩
  rw [hproduct, hlimit, hfactor]
  rfl

theorem maxPage?_eq {w : PageWords} (h : 1 ≤ w.limit.toNat) (total : UInt64) :
    ∃ m, w.maxPage? total = some m ∧ m.toNat = w.pagination.maxPage total.toNat := by
  have hlimit : w.limit.toUInt64.toNat = w.limit.toNat := UInt32.toNat_toUInt64 w.limit
  unfold maxPage? Pagination.maxPage
  by_cases hzero : total = 0
  · subst hzero
    exact ⟨1, rfl, rfl⟩
  · have hnat : total.toNat ≠ 0 := fun heq => hzero (UInt64.toNat_inj.1 heq)
    rw [if_neg hzero, if_neg hnat]
    obtain ⟨m, hm, hquotient⟩ := Checked.divCeil?_eq (a := total) (hlimit.symm ▸ h)
    exact ⟨m, hm, by rw [hquotient, hlimit]; rfl⟩

end PageWords

end Listing
