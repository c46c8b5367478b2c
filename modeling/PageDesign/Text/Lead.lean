/-! # What a text begins with

`after? lead s` looks for `lead` at the front of `s` and gives what follows it.
It succeeds on the texts `lead ++ rest` and on no other (`after?_eq_some_iff`).
-/
namespace PageDesign.Text

/-- What follows `lead` in a text that begins with it. -/
def after? : List Char → List Char → Option (List Char)
  | [], s => some s
  | _ :: _, [] => none
  | a :: lead, c :: s => if a = c then after? lead s else none

theorem after?_eq_some_iff {lead s rest : List Char} :
    after? lead s = some rest ↔ s = lead ++ rest := by
  fun_induction after? lead s with
  | case1 s => simp
  | case2 => simp
  | case3 a lead s ih => simp [ih]
  | case4 a lead c s h => simp [Ne.symm h]

@[simp] theorem after?_append (lead rest : List Char) :
    after? lead (lead ++ rest) = some rest :=
  after?_eq_some_iff.mpr rfl

end PageDesign.Text
