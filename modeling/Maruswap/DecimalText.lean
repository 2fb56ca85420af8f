import Mathlib.Algebra.Ring.Nat
import Mathlib.Data.List.OfFn
import Mathlib.Tactic.Common

/-!
# Decimal numbers in a buffer

What `snprintf` with `%d` writes into a buffer that held something else, and what
`atoi` reads out of it.
-/

set_option autoImplicit false

namespace DecimalText

def nul : Char := Char.ofNat 0

def decimal (n : ℤ) : List Char :=
  if n < 0 then '-'::Nat.toDigits 10 n.natAbs else Nat.toDigits 10 n.natAbs

/-- The text, cut off to leave room for the NUL behind it. The rest of the buffer stays. -/
def snprintf {size : ℕ} (text : List Char) (buf : Fin size → Char) : Fin size → Char := fun i =>
  let cut := text.take (size-1)
  if h : i.val < cut.length then cut[i.val] else if i.val = cut.length then nul else buf i

def isSpace (c : Char) : Bool := c = ' ' || (9 ≤ c.toNat && c.toNat ≤ 13)

/-- The digits up to the first character that is none. -/
def leading (s : List Char) : ℕ := Nat.ofDigitChars 10 (s.takeWhile Char.isDigit) 0

/-- White space is skipped; one sign may come before the digits. -/
def atoi (s : List Char) : ℤ :=
  match s.dropWhile isSpace with
  | '-'::rest => -leading rest
  | '+'::rest => leading rest
  | rest => leading rest

theorem leading_digits (n : ℕ) (rest : List Char) (h : ∀ c ∈ rest.head?, c.isDigit = false) :
    leading (Nat.toDigits 10 n++rest) = n := by
  have hall : ∀ c ∈ Nat.toDigits 10 n, c.isDigit = true :=
    fun c hc => Nat.isDigit_of_mem_toDigits (by decide) (by decide) hc
  have hrest : rest.takeWhile Char.isDigit = [] := by
    cases rest with
    | nil => rfl
    | cons c cs => simp [h c (by simp)]
  rw [leading, List.takeWhile_append_of_pos hall, hrest, List.append_nil,
    Nat.ofDigitChars_ten_toDigits]

theorem not_space {c : Char} (h : c.isDigit = true) : isSpace c = false := by
  have hdigit : 48 ≤ c.toNat ∧ c.toNat ≤ 57 := Char.isDigit_iff_toNat.mp h
  have hne : c ≠ ' ' := by
    rintro rfl
    exact absurd hdigit.1 (by decide)
  simp only [isSpace, hne, decide_false, Bool.false_or, Bool.and_eq_false_iff,
    decide_eq_false_iff_not]
  omega

theorem atoi_leading {s : List Char} (h : ∀ c ∈ s.head?, c.isDigit = true) :
    atoi s = leading s := by
  cases s with
  | nil => rfl
  | cons c cs =>
    have hc := h c (by simp)
    have hdrop : (c::cs).dropWhile isSpace = c::cs :=
      List.dropWhile_cons_of_neg (by simp [not_space hc])
    rw [atoi, hdrop]
    split
    · next he => rw [(List.cons.inj he).1] at hc; exact absurd hc (by decide)
    · next he => rw [(List.cons.inj he).1] at hc; exact absurd hc (by decide)
    · rfl

theorem atoi_decimal (n : ℤ) (rest : List Char) (h : ∀ c ∈ rest.head?, c.isDigit = false) :
    atoi (decimal n++rest) = n := by
  unfold decimal
  split
  · have hdrop : ('-'::(Nat.toDigits 10 n.natAbs++rest)).dropWhile isSpace =
        '-'::(Nat.toDigits 10 n.natAbs++rest) := List.dropWhile_cons_of_neg (by decide)
    have hleading := leading_digits n.natAbs rest h
    simp only [List.cons_append, atoi, hdrop, hleading]
    omega
  · rw [atoi_leading, leading_digits _ _ h]
    · omega
    · intro c hc
      obtain ⟨d,ds,hd⟩ := List.exists_cons_of_ne_nil (Nat.toDigits_ne_nil (n := n.natAbs) (b := 10))
      rw [hd, List.cons_append, List.head?_cons] at hc
      obtain rfl := Option.some.inj hc
      exact Nat.isDigit_of_mem_toDigits (by decide) (by decide) (hd ▸ List.mem_cons_self)

theorem decimal_length {n : ℤ} {k : ℕ} (hk : 0 < k) (h : n.natAbs < 10^k) :
    (decimal n).length ≤ k+1 := by
  have hdigits := (Nat.length_toDigits_le_iff (by decide) hk).mpr h
  unfold decimal
  split
  · rw [List.length_cons]
    omega
  · omega

section Buffer
variable {size : ℕ}

theorem of_fn_snprintf {text : List Char} (h : text.length < size) (buf : Fin size → Char) :
    List.ofFn (snprintf text buf) = text++nul::(List.ofFn buf).drop (text.length+1) := by
  have hcut : text.take (size-1) = text := List.take_of_length_le (by omega)
  refine List.ext_getElem ?_ fun i hi _ => ?_
  · simp only [List.length_ofFn, List.length_append, List.length_cons, List.length_drop]
    omega
  · rw [List.length_ofFn] at hi
    rw [List.getElem_ofFn]
    simp only [snprintf, hcut]
    rcases lt_trichotomy i text.length with hlt | rfl | hgt
    · rw [dif_pos hlt, List.getElem_append_left hlt]
    · rw [dif_neg (lt_irrefl _), if_pos rfl, List.getElem_append_right (le_refl _)]
      simp only [Nat.sub_self, List.getElem_cons_zero]
    · obtain ⟨j,rfl⟩ := Nat.exists_eq_add_of_lt hgt
      have hindex : text.length+j+1-text.length = j+1 := by omega
      rw [dif_neg (by omega), if_neg (by omega), List.getElem_append_right (by omega)]
      simp only [hindex, List.getElem_cons_succ, List.getElem_drop, List.getElem_ofFn]
      congr 2
      omega

theorem atoi_snprintf {n : ℤ} (h : (decimal n).length < size) (buf : Fin size → Char) :
    atoi (List.ofFn (snprintf (decimal n) buf)) = n := by
  rw [of_fn_snprintf h]
  refine atoi_decimal n _ fun c hc => ?_
  obtain rfl := Option.some.inj hc
  decide

example : atoi (List.ofFn (snprintf (decimal 7) (snprintf (decimal (-1234))
    fun _ : Fin 8 => nul))) = 7 := by decide

end Buffer

end DecimalText
