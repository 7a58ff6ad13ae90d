/-!
Vectors whose elements are named by the numbers below their size, so that no name is out of
bounds.
-/

namespace Vector

/-- The vector with another element at `i`. -/
@[inline]
def put {α : Type} {n : Nat} (xs : Vector α n) (i : Fin n) (x : α) : Vector α n :=
  xs.set i.val x i.isLt

@[simp]
theorem get_put_self {α : Type} {n : Nat} (xs : Vector α n) (i : Fin n) (x : α) :
    (xs.put i x).get i = x := by
  change (xs.set i.val x i.isLt)[i.val] = x
  exact Vector.getElem_set_self i.isLt

theorem get_put_of_ne {α : Type} {n : Nat} (xs : Vector α n) {i j : Fin n} (x : α)
    (h : i ≠ j) : (xs.put i x).get j = xs.get j := by
  change (xs.set i.val x i.isLt)[j.val] = xs[j.val]
  exact Vector.getElem_set_ne i.isLt j.isLt fun e => h (Fin.ext e)

end Vector
