/-
# Steps that succeed

A step of compiling succeeds if each of its parts does, one after the other. The lemmas take a successful step apart,
so that later proofs do not look inside the monad.
-/

import TripleSql.Compile.Assembly
import TripleSql.Proofs.Lists

namespace TripleSql
namespace Compile

variable {α β : Type} {s s' : Scope}

namespace Step

/-- Two steps one after the other succeed if each does, the second where the first ended. -/
theorem bind_eq_ok {x : Step α} {f : α → Step β} {b : β} :
    (x >>= f) s = .ok b s' ↔ ∃ a t, x s = .ok a t ∧ f a t = .ok b s' := by
  change EStateM.bind x f s = .ok b s' ↔ _
  unfold EStateM.bind
  split
  · next a t hx =>
    refine ⟨fun h => ⟨a, t, hx, h⟩, fun ⟨a', t', hx', h⟩ => ?_⟩
    cases hx.symm.trans hx'
    exact h
  · next e t hx => simp [hx]

/-- After a step that succeeds goes on what follows it. -/
theorem bind_of_eq_ok {x : Step α} {f : α → Step β} {a : α} (h : x s = .ok a s') : (x >>= f) s = f a s' := by
  change EStateM.bind x f s = _
  rw [EStateM.bind, h]

/-- What follows a step that fails is not reached. -/
theorem bind_of_eq_error {x : Step α} {f : α → Step β} {e : Error} (h : x s = .error e s') :
    (x >>= f) s = .error e s' := by
  change EStateM.bind x f s = _
  rw [EStateM.bind, h]

/-- A value alone changes no scope. -/
theorem pure_eq_ok {a b : α} : (pure a : Step α) s = .ok b s' ↔ a = b ∧ s = s' := by
  change EStateM.Result.ok a s = .ok b s' ↔ _
  simp

/-- Looking at the scope changes nothing. -/
theorem get_eq_ok {t : Scope} : (get : Step Scope) s = .ok t s' ↔ s = t ∧ s = s' := by
  change EStateM.Result.ok s s = .ok t s' ↔ _
  simp

/-- A part that always succeeds is a step that always succeeds. -/
theorem modifyGet_eq_ok {f : Scope → α × Scope} {a : α} :
    (modifyGet f : Step α) s = .ok a s' ↔ f s = (a, s') := by
  change EStateM.Result.ok (f s).1 (f s).2 = .ok a s' ↔ _
  rw [EStateM.Result.ok.injEq, Prod.ext_iff]

/-- A check succeeds with what it finds, and changes nothing. -/
theorem ofExcept_eq_ok {e : Except Error α} {a : α} :
    (MonadExcept.ofExcept e : Step α) s = .ok a s' ↔ e = .ok a ∧ s = s' := by
  cases e with
  | error e => exact iff_of_false nofun nofun
  | ok b => exact pure_eq_ok.trans (by simp)

/-- A check that fails is a step that fails where it started. -/
theorem ofExcept_of_eq_error {x : Except Error α} {e : Error} (h : x = .error e) :
    (MonadExcept.ofExcept x : Step α) s = .error e s := by
  rw [h]
  rfl

/-- A step that only fails does not succeed. -/
theorem throw_ne_ok {e : Error} {a : α} : (throw e : Step α) s ≠ .ok a s' := nofun

end Step

/-- The first of two checks must pass, then the second. -/
theorem bind_eq_ok_except {ε : Type} {x : Except ε α} {f : α → Except ε β} {b : β} :
    (x >>= f) = .ok b ↔ ∃ a, x = .ok a ∧ f a = .ok b := by
  cases x <;> simp [bind, Except.bind]

/-- A function after an outcome has a value if the outcome has. -/
theorem map_eq_ok_except {ε : Type} {x : Except ε α} {f : α → β} {b : β} :
    x.map f = .ok b ↔ ∃ a, x = .ok a ∧ f a = b := by
  cases x <;> simp [Except.map]

/-- A list is mapped through if each entry is. -/
theorem mapM_eq_ok_except {ε : Type} {f : α → Except ε β} {as : List α} {bs : List β} :
    as.mapM f = .ok bs ↔ List.Forall₂ (fun a b => f a = .ok b) as bs := by
  induction as generalizing bs with
  | nil => cases bs <;> simp [pure, Except.pure]
  | cons a as ih =>
    simp only [List.mapM_cons, bind_eq_ok_except, ih]
    constructor
    · rintro ⟨b, hb, bs', hbs, h⟩
      cases h
      exact .cons hb hbs
    · rintro (_ | ⟨hb, hbs⟩)
      exact ⟨_, hb, _, hbs, rfl⟩

/-- A list is not mapped through where an entry is not; the entries before it do not matter if they are. -/
theorem mapM_append_eq_error_except {ε : Type} {f : α → Except ε β} {as bs : List α} {a : α} {e : ε}
    (has : ∀ a ∈ as, ∃ b, f a = .ok b) (ha : f a = .error e) : (as ++ a :: bs).mapM f = .error e := by
  induction as with
  | nil =>
    rw [List.nil_append, List.mapM_cons, ha]
    rfl
  | cons c as ih =>
    obtain ⟨b, hb⟩ := has c (List.mem_cons_self ..)
    rw [List.cons_append, List.mapM_cons, hb]
    change ((as ++ a :: bs).mapM f >>= _) = _
    rw [ih fun a ha => has a (List.mem_cons_of_mem _ ha)]
    rfl

end Compile
end TripleSql
