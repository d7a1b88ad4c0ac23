import Oberlet.Host.Machine

/-!
# Jobs on machines
-/

namespace Oberlet

/-- A machine that has files, and on which nothing has happened. -/
def Machine.holding (files : FileTree) : Machine where
  files := files
  workDir := ⟨true, []⟩
  home := ⟨true, []⟩
  searchPath := []
  input := []
  output := ""
  clock := ""
  effect := fun _ _ files => (.ok (), files)

namespace Job

theorem bind_done_right (job : Job α) : (job.bind fun a => done a) = job := by
  induction job with
  | done value => rfl
  | exit code => rfl
  | ask request next ih => exact congrArg (ask request) (funext ih)

theorem bind_assoc {γ : Type} (job : Job α) (f : α → Job β) (g : β → Job γ) :
    (job.bind f).bind g = job.bind fun a => (f a).bind g := by
  induction job with
  | done value => rfl
  | exit code => rfl
  | ask request next ih => exact congrArg (ask request) (funext ih)

instance : LawfulMonad Job :=
  LawfulMonad.mk' Job bind_done_right (fun _ _ => rfl) bind_assoc

variable {α β : Type} {f : α → Job β} {m m' : Machine} {x y : Job α}

theorem run_bind_of_value {a : α} (h : x.run m = (.value a, m')) :
    (x >>= f).run m = (f a).run m' := by
  induction x generalizing m with
  | done value =>
    cases h
    rfl
  | exit code => cases h
  | ask request next ih => exact ih _ h

theorem run_bind_of_exited {code : Nat} (h : x.run m = (.exited code, m')) :
    (x >>= f).run m = (.exited code, m') := by
  induction x generalizing m with
  | done value => cases h
  | exit code =>
    cases h
    rfl
  | ask request next ih => exact ih _ h

/-! ## Answers -/

def Answered (G : (r : Request) → r.Reply → Prop) : Job α → Machine → Prop
  | done _, _ => True
  | exit _, _ => True
  | ask r next, m => G r (m.answer r).1 ∧ (next (m.answer r).1).Answered G (m.answer r).2

variable {G : (r : Request) → r.Reply → Prop}

instance decidableAnswered [∀ r reply, Decidable (G r reply)] :
    (x : Job α) → (m : Machine) → Decidable (x.Answered G m)
  | done _, _ => .isTrue trivial
  | exit _, _ => .isTrue trivial
  | ask r next, m =>
    have := decidableAnswered (next (m.answer r).1) (m.answer r).2
    inferInstanceAs (Decidable (_ ∧ _))

/-- A job is answered if its parts are. -/
theorem answered_bind : (x >>= f).Answered G m ↔
      x.Answered G m ∧ ∀ a m', x.run m = (.value a, m') → (f a).Answered G m' := by
  induction x generalizing m with
  | done value =>
    refine ⟨fun h => ⟨trivial, fun a m' hrun => ?_⟩, fun h => h.2 value m rfl⟩
    cases hrun
    exact h
  | exit code => exact ⟨fun _ => ⟨trivial, fun a m' hrun => by cases hrun⟩, fun _ => trivial⟩
  | ask request next ih =>
    constructor
    · intro h
      obtain ⟨hnext, hrest⟩ := (ih _).mp h.2
      exact ⟨⟨h.1, hnext⟩, hrest⟩
    · intro h
      exact ⟨h.1.1, (ih _).mpr ⟨h.1.2, h.2⟩⟩

theorem answered_of_forall (hG : ∀ r reply, G r reply) (x : Job α) (m : Machine) :
    x.Answered G m := by
  induction x generalizing m with
  | done value => trivial
  | exit code => trivial
  | ask request next ih => exact ⟨hG _ _, ih _ _⟩

/-! ## Agreement -/

/-- Whatever a job does on a machine with a property, it leaves one that has the property too. -/
def Stays (P : Machine → Prop) (x : Job α) : Prop :=
  ∀ m a m', P m → x.run m = (.value a, m') → P m'

/-- On all machines that have a property and give the first job the right answers, another job does
the same. -/
def Agree (P : Machine → Prop) (G : (r : Request) → r.Reply → Prop) (x y : Job α) : Prop :=
  ∀ m, P m → x.Answered G m → x.run m = y.run m ∧ y.Answered G m

variable {P : Machine → Prop}

theorem Agree.refl (x : Job α) : Agree P G x x := fun _ _ hx => ⟨rfl, hx⟩

theorem Agree.trans {z : Job α} (h : Agree P G x y) (h' : Agree P G y z) : Agree P G x z := by
  intro m hm hx
  obtain ⟨hrun, hy⟩ := h m hm hx
  obtain ⟨hrun', hz⟩ := h' m hm hy
  exact ⟨hrun.trans hrun', hz⟩

/-- Jobs whose parts do the same on all machines of a kind do the same. -/
theorem Agree.bind {g : α → Job β} (h : Agree P G x y) (hy : Stays P y)
    (hnext : ∀ a, Agree P G (f a) (g a)) : Agree P G (x >>= f) (y >>= g) := by
  intro m hm hanswered
  obtain ⟨hx, hf⟩ := answered_bind.mp hanswered
  obtain ⟨hrun, hanswered⟩ := h m hm hx
  rcases hvalue : y.run m with ⟨outcome, m'⟩
  rw [hvalue] at hrun
  cases outcome with
  | value a =>
    obtain ⟨hrun', hanswered'⟩ := hnext a m' (hy m a m' hm hvalue) (hf a m' hrun)
    rw [run_bind_of_value hrun, run_bind_of_value hvalue]
    refine ⟨hrun', answered_bind.mpr ⟨hanswered, fun a' m'' hrun'' => ?_⟩⟩
    cases hvalue.symm.trans hrun''
    exact hanswered'
  | exited code =>
    rw [run_bind_of_exited hrun, run_bind_of_exited hvalue]
    refine ⟨rfl, answered_bind.mpr ⟨hanswered, fun a' m'' hrun'' => ?_⟩⟩
    cases hvalue.symm.trans hrun''

theorem Stays.pure (a : α) : Stays P (Pure.pure a : Job α) := by
  intro m a' m' hm hrun
  cases hrun
  exact hm

theorem Stays.bind (h : Stays P x) (hnext : ∀ a, Stays P (f a)) : Stays P (x >>= f) := by
  intro m b m' hm hrun
  rcases hvalue : x.run m with ⟨outcome, m₁⟩
  cases outcome with
  | value a =>
    rw [run_bind_of_value hvalue] at hrun
    exact hnext a m₁ b m' (h m a m₁ hm hvalue) hrun
  | exited code =>
    rw [run_bind_of_exited hvalue] at hrun
    cases hrun

end Job

end Oberlet
