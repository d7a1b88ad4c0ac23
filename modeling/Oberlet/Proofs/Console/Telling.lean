import Oberlet.Console.Run
import Oberlet.Proofs.Host.Job

/-!
# Telling the user
-/

namespace Oberlet

/-! ## Machines -/

/-- A machine on which something was shown. Nothing else has changed. -/
def Machine.Showed (m₀ m : Machine) : Prop := ∃ output, m = { m₀ with output }

namespace Machine.Showed

variable {m₀ m : Machine}

theorem refl (m : Machine) : m.Showed m := ⟨m.output, rfl⟩

theorem more (h : m₀.Showed m) (output : String) : m₀.Showed { m with output } := by
  obtain ⟨before, rfl⟩ := h
  exact ⟨output, rfl⟩

theorem trans {m' : Machine} (h : m₀.Showed m) (h' : m.Showed m') : m₀.Showed m' := by
  obtain ⟨output, rfl⟩ := h'
  exact h.more output

theorem files (h : m₀.Showed m) : m.files = m₀.files := by
  obtain ⟨output, rfl⟩ := h
  rfl

theorem clock (h : m₀.Showed m) : m.clock = m₀.clock := by
  obtain ⟨output, rfl⟩ := h
  rfl

end Machine.Showed

namespace Run

section

variable {α β : Type} {x : Run α} {f : α → Run β} {c c' : Console} {m m' : Machine} {a : α}
  (h : (x c).run m = (.value (a, c'), m'))

include h

theorem run_bind : ((x >>= f) c).run m = (f a c').run m' := Job.run_bind_of_value h

theorem answered_bind {G : (r : Request) → r.Reply → Prop}
    (hanswered : ((x >>= f) c).Answered G m) : (f a c').Answered G m' :=
  (Job.answered_bind.mp hanswered).2 (a, c') m' h

end

/-- What the user is told is shown, and nothing else on the machine changes. -/
theorem run_tell (notice : Notice) (c : Console) (m : Machine) : (tell notice c).run m =
    (proceed (c.tell notice).2.next (c.tell notice).1).run
      { m with output := m.output ++ (c.tell notice).2.text } := rfl

theorem stays_tell {P : Machine → Prop} (hP : ∀ m output, P m → P { m with output })
    (notice : Notice) (c : Console) : Job.Stays P (tell notice c) := by
  intro m r m' hm hrun
  rw [run_tell] at hrun
  cases hnext : (c.tell notice).2.next with
  | continues =>
    rw [hnext] at hrun
    cases hrun
    exact hP m _ hm
  | exits code =>
    rw [hnext] at hrun
    cases hrun
  | breaks =>
    rw [hnext] at hrun
    cases hrun

theorem stays_tellAll {P : Machine → Prop} (hP : ∀ m output, P m → P { m with output })
    (notices : List Notice) (c : Console) : Job.Stays P (tellAll notices c) := by
  induction notices generalizing c with
  | nil => exact .pure _
  | cons notice notices ih => exact (stays_tell hP notice c).bind fun r => ih r.2

theorem tellAll_singleton (notice : Notice) : tellAll [notice] = tell notice := by
  simp [tellAll]

theorem tellAll_append (notices more : List Notice) :
    tellAll (notices ++ more) = (do tellAll notices; tellAll more) := by
  induction notices with
  | nil => simp [tellAll]
  | cons notice notices ih => simp [tellAll, ih]

end Run

/-! ## Consoles -/

/-- A console can end the phase that is running, if there is one. -/
def Console.Steady (c : Console) : Prop :=
  c.running = true → (Console.padding? c.phase).isSome = true

namespace Notice

/-- A notice that does not end a run. -/
def Passing : Notice → Prop
  | phaseBegins name => (Console.padding? name).isSome = true
  | internal _ | fatal _ => False
  | _ => True

def counts : Notice → Bool
  | error _ _ _ _ | failure _ _ => true
  | _ => false

end Notice

namespace Console

variable {c : Console}

theorem Steady.endPhase (h : c.Steady) (elapsed : Option String) :
    (c.endPhase elapsed).2.next = .continues ∧ (c.endPhase elapsed).1.Steady ∧
      (c.endPhase elapsed).1.errors = c.errors := by
  unfold Console.endPhase
  cases hrunning : c.running with
  | false => exact ⟨rfl, h, rfl⟩
  | true =>
    obtain ⟨padding, hpadding⟩ := Option.isSome_iff_exists.mp (h hrunning)
    rw [hpadding]
    cases elapsed <;> exact ⟨rfl, by simp [Steady], rfl⟩

theorem Steady.interrupt (h : c.Steady) (text : String) (next : Aftermath) :
    (c.interrupt text next).2.next = next ∧ (c.interrupt text next).1.Steady ∧
      (c.interrupt text next).1.errors = c.errors := by
  obtain ⟨hnext, hsteady, herrors⟩ := h.endPhase none
  unfold Console.interrupt
  rcases hend : c.endPhase none with ⟨c', shownText, shownNext⟩
  rw [hend] at hnext hsteady herrors
  cases hnext
  exact ⟨rfl, hsteady, herrors⟩

theorem Steady.showError (h : c.Steady) (text : String) :
    (c.showError text).2.next = .continues ∧ (c.showError text).1.Steady ∧
      (c.showError text).1.errors = c.errors + 1 := by
  have h' : Steady { c with errors := c.errors + 1 } := h
  unfold Console.showError
  dsimp only
  split
  · exact h'.interrupt text .continues
  · exact ⟨rfl, h', rfl⟩

/-- Errors are counted, and the run goes on. -/
theorem Steady.tell (h : c.Steady) {notice : Notice} (hpassing : notice.Passing) :
    (c.tell notice).2.next = .continues ∧ (c.tell notice).1.Steady ∧
      (c.tell notice).1.errors = c.errors + notice.counts.toNat := by
  cases notice with
  | error source path span message => exact h.showError _
  | failure path message => exact h.showError _
  | warning source path span message => exact ⟨rfl, h, rfl⟩
  | info tag message => exact ⟨rfl, h, rfl⟩
  | header version profile => exact ⟨rfl, h, rfl⟩
  | finished outputPath => exact ⟨rfl, h, rfl⟩
  | internal message => exact hpassing.elim
  | fatal message => exact hpassing.elim
  | phaseBegins name =>
    obtain ⟨padding, hpadding⟩ := Option.isSome_iff_exists.mp hpassing
    rw [Console.tell]
    split
    · rw [beginPhase, hpadding]
      exact ⟨rfl, fun _ => hpassing, rfl⟩
    · exact ⟨rfl, h, rfl⟩
  | phaseEnds elapsed =>
    rw [Console.tell]
    split
    · exact h.endPhase _
    · exact ⟨rfl, h, rfl⟩

end Console

namespace Run

variable {c : Console}

theorem run_tell_of_passing (h : c.Steady) {notice : Notice} (hpassing : notice.Passing)
    (m : Machine) :
    ∃ c' m', (tell notice c).run m = (.value ((), c'), m') ∧ m.Showed m' ∧ c'.Steady ∧
      c'.errors = c.errors + notice.counts.toNat := by
  obtain ⟨hnext, hsteady, herrors⟩ := h.tell hpassing
  refine ⟨_, _, ?_, ⟨m.output ++ (c.tell notice).2.text, rfl⟩, hsteady, herrors⟩
  rw [run_tell, hnext]
  rfl

theorem run_tellAll (h : c.Steady) {notices : List Notice}
    (hpassing : ∀ notice ∈ notices, notice.Passing) (m : Machine) :
    ∃ c' m', (tellAll notices c).run m = (.value ((), c'), m') ∧ m.Showed m' ∧ c'.Steady ∧
      c'.errors = c.errors + notices.countP (·.counts) := by
  induction notices generalizing c m with
  | nil => exact ⟨c, m, rfl, .refl m, h, rfl⟩
  | cons notice notices ih =>
    rw [List.forall_mem_cons] at hpassing
    obtain ⟨c₁, m₁, hrun, hshowed, hsteady, herrors⟩ := run_tell_of_passing h hpassing.1 m
    obtain ⟨c', m', hrest, hshowed', hsteady', herrors'⟩ := ih hsteady hpassing.2 m₁
    refine ⟨c', m', (run_bind hrun).trans hrest, hshowed.trans hshowed', hsteady', ?_⟩
    rw [herrors', herrors, Nat.add_assoc, Nat.add_comm notice.counts.toNat, List.countP_cons]
    cases notice.counts <;> rfl

end Run

end Oberlet
