import Mathlib.Data.List.Forall2
import Mathlib.Logic.Function.Iterate

/-!
# Objects, and arguments that are forwarded

An object answers calls and may change by them. `Alike` says that no sequence of calls tells two
objects apart. An `Arg` is what a forwarding reference is bound to: an object that is constructed from
it is a copy, or it takes the value and leaves the argument moved from. `Survives` says when this
makes no difference after some constructions.
-/

namespace Objects

variable {V ι ω : Type*} {call : V → ι → ω × V} {a b : V}

/-! ## Objects that behave alike -/

/-- Calls of related objects have the same answers and keep them related. -/
def IsBisim (call : V → ι → ω × V) (R : V → V → Prop) : Prop :=
  ∀ a b, R a b → ∀ i, (call a i).1 = (call b i).1 ∧ R (call a i).2 (call b i).2

/-- No calls tell two objects apart. -/
def Alike (call : V → ι → ω × V) (a b : V) : Prop := ∃ R, IsBisim call R ∧ R a b

/-- An object behaves like itself. -/
theorem Alike.refl (call : V → ι → ω × V) (a : V) : Alike call a a := by
  refine ⟨Eq, ?_, rfl⟩
  rintro a _ rfl i
  exact ⟨rfl, rfl⟩

/-- Being alike is itself kept by calls: it is the largest such relation. -/
theorem isBisim_alike (call : V → ι → ω × V) : IsBisim call (Alike call) := by
  rintro a b ⟨R, hR, hab⟩ i
  exact ⟨(hR a b hab i).1, R, hR, (hR a b hab i).2⟩

/-- Objects that are alike answer a call alike. -/
theorem Alike.answer_eq (h : Alike call a b) (i : ι) : (call a i).1 = (call b i).1 :=
  (isBisim_alike call a b h i).1

/-- And stay alike behind it. -/
theorem Alike.next (h : Alike call a b) (i : ι) : Alike call (call a i).2 (call b i).2 :=
  (isBisim_alike call a b h i).2

/-! ## Arguments -/

/-- What a move leaves in an object. -/
class Movable (V : Type*) where
  moved : V → V

/-- What `std::forward` makes of an argument. -/
inductive Category where
  | lvalue
  | rvalue
  deriving DecidableEq

/-- An argument that a forwarding reference is bound to. -/
structure Arg (V : Type*) where
  category : Category
  object : V

namespace Arg

variable [Movable V]

/-- The argument when an object has been constructed from it. -/
def rest (arg : Arg V) : Arg V :=
  match arg.category with
  | .lvalue => arg
  | .rvalue => { arg with object := Movable.moved arg.object }

/-- An argument that is passed as an rvalue behaves after some moves as before. -/
def Survives (call : V → ι → ω × V) (arg : Arg V) (k : Nat) : Prop :=
  arg.category = .rvalue → Alike call (Movable.moved^[k] arg.object) arg.object

/-- An lvalue is copied and stays what it was. -/
@[simp] theorem rest_lvalue (a : V) : rest ⟨.lvalue, a⟩ = ⟨.lvalue, a⟩ := rfl

/-- An rvalue is moved from. -/
@[simp] theorem rest_rvalue (a : V) : rest ⟨.rvalue, a⟩ = ⟨.rvalue, Movable.moved a⟩ := rfl

/-- An lvalue may be copied as often as one likes. -/
@[simp] theorem rest_iterate_lvalue (a : V) (k : Nat) : rest^[k] ⟨.lvalue, a⟩ = ⟨.lvalue, a⟩ :=
  Function.iterate_fixed (rest_lvalue a) k

/-- Behind `k` constructions an rvalue has been moved from `k` times. -/
@[simp] theorem rest_iterate_rvalue (a : V) (k : Nat) :
    rest^[k] ⟨.rvalue, a⟩ = ⟨.rvalue, Movable.moved^[k] a⟩ := by
  induction k generalizing a with
  | zero => rfl
  | succ k ih => rw [Function.iterate_succ_apply, rest_rvalue, ih, Function.iterate_succ_apply]

/-- What is constructed from an argument after some others behaves as the argument did exactly if the
argument survives. -/
theorem alike_rest_iff {arg : Arg V} {k : Nat} :
    Alike call (rest^[k] arg).object arg.object ↔ arg.Survives call k := by
  obtain ⟨category, a⟩ := arg
  cases category with
  | lvalue =>
    rw [rest_iterate_lvalue]
    exact iff_of_true (Alike.refl call a) nofun
  | rvalue =>
    rw [rest_iterate_rvalue]
    exact ⟨fun h _ => h, fun h => h rfl⟩

/-- The first object constructed from an argument finds it untouched. -/
theorem survives_zero (arg : Arg V) : arg.Survives call 0 := fun _ => Alike.refl call _

end Arg

end Objects
