import Mathlib.Tactic

/-!
Logical timestamps. A timestamp type carries two orders: the linear order by
which batches are sorted, and the partial order `lessEqual` of causality, with
least upper bounds (`join`) and a least element.
-/

namespace Feldera.Time

class Timestamp (T : Type*) [LinearOrder T] where
  lessEqual : T → T → Bool
  join : T → T → T
  minimum : T
  lessEqual_refl : ∀ a, lessEqual a a
  lessEqual_trans : ∀ a b c, lessEqual a b → lessEqual b c → lessEqual a c
  lessEqual_antisymm : ∀ a b, lessEqual a b → lessEqual b a → a = b
  left_join : ∀ a b, lessEqual a (join a b)
  right_join : ∀ a b, lessEqual b (join a b)
  join_lessEqual : ∀ a b c, lessEqual a c → lessEqual b c → lessEqual (join a b) c
  minimum_lessEqual : ∀ a, lessEqual minimum a

namespace Timestamp

variable {T : Type*} [LinearOrder T] [Timestamp T]

theorem join_eq_left {a b : T} (h : lessEqual b a) : join a b = a :=
  lessEqual_antisymm _ _ (join_lessEqual _ _ _ (lessEqual_refl a) h) (left_join a b)

@[simp] theorem join_minimum (a : T) : join a minimum = a :=
  join_eq_left (minimum_lessEqual a)

theorem join_lessEqual_iff {a b c : T} :
    lessEqual (join a b) c = true ↔ lessEqual a c = true ∧ lessEqual b c = true := by
  constructor
  · intro h
    exact ⟨lessEqual_trans _ _ _ (left_join a b) h, lessEqual_trans _ _ _ (right_join a b) h⟩
  · rintro ⟨ha, hb⟩
    exact join_lessEqual _ _ _ ha hb

end Timestamp

instance : Timestamp Unit where
  lessEqual _ _ := true
  join _ _ := ()
  minimum := ()
  lessEqual_refl _ := rfl
  lessEqual_trans _ _ _ _ _ := rfl
  lessEqual_antisymm _ _ _ _ := rfl
  left_join _ _ := rfl
  right_join _ _ := rfl
  join_lessEqual _ _ _ _ _ := rfl
  minimum_lessEqual _ := rfl

end Feldera.Time
