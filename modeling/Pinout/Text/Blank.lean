import Pinout.Text.Basic

/-!
# Pinout.Text.Blank

Blank characters are the characters with the Unicode property `White_Space`. On them rest
trimming, the words of a text, and the collapsed text, in which one space stands between two
words.

`ne_nil_of_mem_words` and `not_blank_of_mem_words` say that a word is a non-empty run of
characters that are not blank.
-/

namespace Pinout
namespace Text

def isBlank (c : Char) : Bool :=
  (9 ≤ c.toNat && c.toNat ≤ 13) || c.toNat == 0x20 || c.toNat == 0x85 || c.toNat == 0xA0 ||
    c.toNat == 0x1680 || (0x2000 ≤ c.toNat && c.toNat ≤ 0x200A) || c.toNat == 0x2028 ||
    c.toNat == 0x2029 || c.toNat == 0x202F || c.toNat == 0x205F || c.toNat == 0x3000

def trimStart (t : Text) : Text := t.dropWhile isBlank

def trimEnd (t : Text) : Text := (t.reverse.dropWhile isBlank).reverse

def trim (t : Text) : Text := trimEnd (trimStart t)

def allBlank (t : Text) : Bool := t.all isBlank

/-- The maximal runs of characters that are not blank. -/
def words (t : Text) : List Text :=
  match _h : t.dropWhile isBlank with
  | [] => []
  | c :: r => (c :: r.takeWhile (!isBlank ·)) :: words (r.dropWhile (!isBlank ·))
termination_by t.length
decreasing_by
  have h₁ : (t.dropWhile isBlank).length ≤ t.length := (List.dropWhile_sublist _).length_le
  have h₂ : (r.dropWhile (!isBlank ·)).length ≤ r.length := (List.dropWhile_sublist _).length_le
  rw [_h, List.length_cons] at h₁
  omega

/-- The words of a text with one space between each two. -/
def collapse (t : Text) : Text := joinWith [' '] (words t)

theorem ne_nil_of_mem_words {t w : Text} (h : w ∈ words t) : w ≠ [] := by
  fun_induction words t with
  | case1 => simp at h
  | case2 t c r _ ih =>
    rcases List.mem_cons.1 h with rfl | hw
    · simp
    · exact ih hw

theorem not_blank_of_mem_words {t w : Text} (h : w ∈ words t) : ∀ c ∈ w, isBlank c = false := by
  fun_induction words t with
  | case1 => simp at h
  | case2 t c r ht ih =>
    rcases List.mem_cons.1 h with rfl | hw
    · intro d hd
      rcases List.mem_cons.1 hd with rfl | hd
      · have := List.head?_dropWhile_not isBlank t
        simpa [ht] using this
      · simpa using List.all_eq_true.1 List.all_takeWhile d hd
    · exact ih hw

end Text
end Pinout
