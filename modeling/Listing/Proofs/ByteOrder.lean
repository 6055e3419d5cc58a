import Listing.Proofs.Rendering
import Mathlib

/-!
# The order of texts is that of their bytes

`bytes_lt_iff`: texts compare as the lists of their UTF-8 bytes do. The encoding of the greater of
two characters is greater at the first byte that differs, whatever follows (`encode_lt`), so the
first characters that differ decide about the bytes as well.
-/

namespace Listing.Text

theorem cons_lt_of_lt {m n : Nat} {us vs : List UInt8} (hlt : m < n) (hn : n < 256) :
    UInt8.ofNat m :: us < UInt8.ofNat n :: vs := by
  rw [List.cons_lt_cons_iff]
  left
  rw [UInt8.lt_iff_toNat_lt, UInt8.toNat_ofNat_of_lt' (hlt.trans hn), UInt8.toNat_ofNat_of_lt' hn]
  exact hlt

theorem cons_lt_of_le {m n : Nat} {us vs : List UInt8} (hle : m ≤ n) (hn : n < 256)
    (h : m = n → us < vs) : UInt8.ofNat m :: us < UInt8.ofNat n :: vs := by
  rcases Nat.lt_or_eq_of_le hle with hlt | rfl
  · exact cons_lt_of_lt hlt hn
  · exact List.cons_lt_cons_iff.2 (.inr ⟨rfl, h rfl⟩)

theorem encode_lt {c d : Char} (h : c < d) (us vs : List UInt8) :
    String.utf8EncodeChar c ++ us < String.utf8EncodeChar d ++ vs := by
  have hlt : c.val.toNat < d.val.toNat := h
  have hmax : d.val.toNat < 0x110000 := by
    rcases d.valid with hd | ⟨-, hd⟩
    · exact hd.trans (by decide)
    · exact hd
  unfold String.utf8EncodeChar
  generalize c.val.toNat = m at hlt ⊢
  generalize d.val.toNat = n at hlt hmax ⊢
  dsimp only
  split_ifs
  any_goals omega
  -- the greater character has no fewer bytes, and with more of them its first byte is greater
  any_goals (apply cons_lt_of_lt <;> omega)
  · refine cons_lt_of_le (by omega) (by omega) fun _ => ?_
    exact cons_lt_of_lt (by omega) (by omega)
  · refine cons_lt_of_le (by omega) (by omega) fun _ => ?_
    refine cons_lt_of_le (by omega) (by omega) fun _ => ?_
    exact cons_lt_of_lt (by omega) (by omega)
  · refine cons_lt_of_le (by omega) (by omega) fun _ => ?_
    refine cons_lt_of_le (by omega) (by omega) fun _ => ?_
    refine cons_lt_of_le (by omega) (by omega) fun _ => ?_
    exact cons_lt_of_lt (by omega) (by omega)

theorem flatMap_encode_lt {cs ds : List Char} (h : cs < ds) :
    cs.flatMap String.utf8EncodeChar < ds.flatMap String.utf8EncodeChar := by
  induction cs generalizing ds with
  | nil =>
    cases ds with
    | nil => exact absurd h (List.lt_irrefl [])
    | cons d ds =>
      obtain ⟨b, bs, hbs⟩ := List.exists_cons_of_ne_nil (String.utf8EncodeChar_ne_nil (c := d))
      rw [List.flatMap_cons, hbs]
      exact List.nil_lt_cons b _
  | cons c cs ih =>
    cases ds with
    | nil => exact absurd h (List.not_lt_nil _)
    | cons d ds =>
      rw [List.flatMap_cons, List.flatMap_cons]
      rcases List.cons_lt_cons_iff.1 h with hlt | ⟨rfl, hlt⟩
      · exact encode_lt hlt _ _
      · exact List.append_left_lt (ih hlt)

/-- Texts compare as their bytes do. -/
theorem bytes_lt_iff {s t : String} : bytes s < bytes t ↔ s < t := by
  have hlt {s t : String} (h : s < t) : bytes s < bytes t := by
    rw [bytes_eq_flatMap, bytes_eq_flatMap]
    exact flatMap_encode_lt h
  constructor
  · intro h
    rcases lt_trichotomy s t with hst | rfl | hts
    · exact hst
    · exact absurd h (List.lt_irrefl _)
    · exact absurd h (List.lt_asymm (hlt hts))
  · exact hlt

end Listing.Text
