import Mathlib.Computability.Language
import Mathlib.Algebra.Order.Kleene

/-! The regular expressions the parser builds and their languages: how the `close` rule folds
a run of closure operators into one and the `factor` rule turns it into a node. -/

namespace Re2cCodegen.Grammar

open Computability

/-- The `RegExp` nodes of the grammar's actions; a character class is a list of half-open
ranges of character codes. -/
inductive RegExp
  | «match» (ranges : List (Nat × Nat))
  | null
  | alt (e1 e2 : RegExp)
  | cat (e1 e2 : RegExp)
  | close (e : RegExp)
  | closeV (e : RegExp) (min max : Nat)
  deriving DecidableEq, Repr

/-- Modelled from the spec: `mkAlt`, which the grammar reads as union. -/
def mkAlt (e1 e2 : RegExp) : RegExp := .alt e1 e2

/-- `close : CLOSE | close CLOSE`: the left-recursive rule keeps an operator repeated, and any
other pair gives `*`. -/
def close (o : Char) (os : List Char) : Char := os.foldl (fun c o => if c == o then c else '*') o

/-- `factor : primary close`. Bison sets `$$` to `$1` before the action, so an operator the
switch does not name leaves the primary. -/
def factor (r : RegExp) (c : Char) : RegExp :=
  match c with
  | '*' => mkAlt (.close r) .null
  | '+' => .close r
  | '?' => mkAlt r .null
  | _ => r

def RegExp.lang : RegExp → Language Nat
  | .match rs => {w | ∃ c, w = [c] ∧ ∃ r ∈ rs, r.1 ≤ c ∧ c < r.2}
  | .null => 1
  | .alt e1 e2 => e1.lang + e2.lang
  | .cat e1 e2 => e1.lang * e2.lang
  | .close e => e.lang * e.lang∗
  | .closeV e min max => {w | ∃ n, min ≤ n ∧ n ≤ max ∧ w ∈ e.lang ^ n}

def applyClose (o : Char) (L : Language Nat) : Language Nat :=
  match o with
  | '*' => L∗
  | '+' => L * L∗
  | '?' => L + 1
  | _ => L

def CloseOp (c : Char) : Prop := c = '*' ∨ c = '+' ∨ c = '?'

theorem lang_factor (r : RegExp) (c : Char) : (factor r c).lang = applyClose c r.lang := by
  unfold factor applyClose
  split
  · rw [mkAlt, RegExp.lang, RegExp.lang, RegExp.lang, add_comm, Language.one_add_self_mul_kstar_eq_kstar]
  · rfl
  · rfl
  · rfl

section Identities

variable (L : Language Nat)

theorem kstar_self_mul_kstar : (L * L∗)∗ = L∗ :=
  le_antisymm (by simpa only [kstar_idem] using kstar_mono mul_kstar_le_kstar)
    (kstar_mono (by simpa only [mul_one] using mul_le_mul_left' (one_le_kstar (a := L)) L))

theorem kstar_add_one : (L + 1)∗ = L∗ :=
  le_antisymm (by simpa only [kstar_idem] using kstar_mono (add_le le_kstar one_le_kstar))
    (kstar_mono le_self_add)

theorem self_mul_kstar_add_one : L * L∗ + 1 = L∗ := by
  rw [add_comm, Language.one_add_self_mul_kstar_eq_kstar]

end Identities

theorem applyClose_applyClose {a o : Char} (ha : CloseOp a) (ho : CloseOp o) (L : Language Nat) :
    applyClose o (applyClose a L) = applyClose (if a == o then a else '*') L := by
  rcases ha with rfl | rfl | rfl <;> rcases ho with rfl | rfl | rfl <;> simp only [applyClose] <;>
    simp only [show ('*' == '+') = false from rfl, show ('*' == '?') = false from rfl,
      show ('+' == '*') = false from rfl, show ('+' == '?') = false from rfl,
      show ('?' == '*') = false from rfl, show ('?' == '+') = false from rfl, beq_self_eq_true,
      if_true, Bool.false_eq_true, if_false]
  -- `*` then `*`, `+`, `?`
  · exact kstar_idem L
  · rw [kstar_idem, kstar_mul_kstar]
  · exact add_eq_left_iff_le.2 one_le_kstar
  -- `+` then `*`, `+`, `?`
  · exact kstar_self_mul_kstar L
  · rw [kstar_self_mul_kstar, mul_assoc, kstar_mul_kstar]
  · exact self_mul_kstar_add_one L
  -- `?` then `*`, `+`, `?`
  · exact kstar_add_one L
  · rw [kstar_add_one, add_mul, one_mul, add_eq_right_iff_le.2 mul_kstar_le_kstar]
  · rw [add_assoc, add_idem]

theorem applyClose_close (L : Language Nat) :
    ∀ (os : List Char) (a : Char), CloseOp a → (∀ c ∈ os, CloseOp c) →
      applyClose (close a os) L = os.foldl (fun L c => applyClose c L) (applyClose a L)
  | [], _, _, _ => rfl
  | o :: os, a, ha, hos => by
    have ho := hos o (List.mem_cons_self _ _)
    have hstep : CloseOp (if a == o then a else '*') := by
      split
      · exact ha
      · exact .inl rfl
    rw [List.foldl_cons, applyClose_applyClose ha ho]
    exact applyClose_close L os _ hstep fun c hc => hos c (List.mem_cons_of_mem _ hc)

theorem factor_close_lang (r : RegExp) (o : Char) (os : List Char) (h : ∀ c ∈ o :: os, CloseOp c) :
    (factor r (close o os)).lang = (o :: os).foldl (fun L c => applyClose c L) r.lang := by
  rw [lang_factor, applyClose_close r.lang os o (h o (List.mem_cons_self _ _))
    fun c hc => h c (List.mem_cons_of_mem _ hc)]
  rfl

theorem factor_close_lang_plus_opt :
    (∀ c ∈ ['+', '?'], CloseOp c) ∧
    (factor (.match [(97, 98)]) (close '+' ['?'])).lang =
      applyClose '?' (applyClose '+' (RegExp.match [(97, 98)]).lang) :=
  have h : ∀ c ∈ ['+', '?'], CloseOp c := by simp [CloseOp]
  ⟨h, factor_close_lang _ '+' ['?'] h⟩

end Re2cCodegen.Grammar
