import Oberlet.Fault

/-!
# Invariants of computations

What is true of the state after a computation that did not fail. The rules follow the parts that
computations are made of.
-/

namespace Oberlet

variable {α β σ ε : Type}

variable {m : StateT σ (Except ε) α} {f : α → StateT σ (Except ε) β} {s s' : σ}

theorem run_bind {a : α} (h : m s = .ok (a, s')) : (m >>= f) s = f a s' := by
  change (Except.bind (m s) fun r => f r.1 r.2) = _
  rw [h]
  rfl

theorem run_bind_error {e : ε} (h : m s = .error e) : (m >>= f) s = .error e := by
  change (Except.bind (m s) fun r => f r.1 r.2) = _
  rw [h]
  rfl

/-- Two steps succeed if and only if each of them does. -/
theorem bind_eq_ok {x : Except ε α} {g : α → Except ε β} {b : β} :
    x >>= g = .ok b ↔ ∃ a, x = .ok a ∧ g a = .ok b := by
  cases x with
  | error e => exact iff_of_false nofun (by rintro ⟨a, ⟨⟩, -⟩)
  | ok a => simp [bind, Except.bind]

theorem of_run_bind_eq_ok {b : β} (h : (m >>= f) s = .ok (b, s')) :
    ∃ a mid, m s = .ok (a, mid) ∧ f a mid = .ok (b, s') := by
  obtain ⟨r, hr, hb⟩ := bind_eq_ok.mp h
  exact ⟨r.1, r.2, hr, hb⟩

/-- From a state with one property, the computation leads to a value and a state with another,
unless it fails. -/
def Ensures (P : σ → Prop) (m : StateT σ (Except Fault) α) (Q : α → σ → Prop) : Prop :=
  ∀ s a s', P s → m s = .ok (a, s') → Q a s'

/-- The computation preserves a property of its state. -/
abbrev Maintains (I : σ → Prop) (m : StateT σ (Except Fault) α) : Prop := Ensures I m fun _ => I

namespace Ensures

variable {P : σ → Prop} {Q : α → σ → Prop} {R : β → σ → Prop}

theorem pure {a : α} (h : ∀ s, P s → Q a s) :
    Ensures P (Pure.pure a : StateT σ (Except Fault) α) Q := by
  rintro s _ _ hs ⟨⟩
  exact h s hs

variable {f : α → StateT σ (Except Fault) β} {m : StateT σ (Except Fault) α}

theorem bind (hm : Ensures P m Q) (hf : ∀ a, Ensures (Q a) (f a) R) : Ensures P (m >>= f) R := by
  intro s b s' hs h
  obtain ⟨a, mid, hrun, hrest⟩ := of_run_bind_eq_ok h
  exact hf a mid b s' (hm s a mid hs hrun) hrest

theorem of_imp {P' : σ → Prop} (h : Ensures P m Q) (himp : ∀ s, P' s → P s) : Ensures P' m Q :=
  fun s a s' hs hrun => h s a s' (himp s hs) hrun

theorem assume {p : Prop} (h : p → Ensures P m Q) : Ensures (fun s => p ∧ P s) m Q :=
  fun s a s' hs hrun => h hs.1 s a s' hs.2 hrun

theorem get_bind {f : σ → StateT σ (Except Fault) α} (hf : ∀ s, P s → Ensures (· = s) (f s) Q) :
    Ensures P (get >>= f) Q :=
  fun s a s' hs h => hf s hs s a s' rfl h

theorem set {s : σ} {Q : Unit → σ → Prop} (hs : Q () s) :
    Ensures P (set s : StateT σ (Except Fault) Unit) Q := by
  rintro _ _ _ _ ⟨⟩
  exact hs

theorem modify {f : σ → σ} {Q : Unit → σ → Prop} (hf : ∀ s, P s → Q () (f s)) :
    Ensures P (modify f : StateT σ (Except Fault) Unit) Q := by
  rintro s _ _ hs ⟨⟩
  exact hf s hs

theorem lift_bind {x : Except Fault α} (hf : ∀ a, x = .ok a → Ensures P (f a) R) :
    Ensures P (liftM x >>= f) R := by
  intro s b s' hs h
  cases x with
  | error fault => cases h
  | ok a => exact hf a rfl s b s' hs h

theorem throw (fault : Fault) : Ensures P (throw fault : StateT σ (Except Fault) α) Q := by
  intro s a s' _ h
  cases h

theorem foldlM {f : β → α → StateT σ (Except Fault) β} {I : β → σ → Prop}
    (h : ∀ b a, Ensures (I b) (f b a) I) (b : β) (xs : List α) :
    Ensures (I b) (xs.foldlM f b) I := by
  induction xs generalizing b with
  | nil => exact .pure fun _ hs => hs
  | cons x rest ih => exact (h b x).bind fun b => ih b

end Ensures

namespace Maintains

variable {I : σ → Prop}

theorem pure (a : α) : Maintains I (Pure.pure a : StateT σ (Except Fault) α) :=
  Ensures.pure fun _ hs => hs

theorem lift (x : Except Fault α) : Maintains I (liftM x : StateT σ (Except Fault) α) := by
  intro s a s' hs h
  cases x with
  | error fault => cases h
  | ok b =>
    cases h
    exact hs

variable {f : α → StateT σ (Except Fault) β}

theorem bind {m : StateT σ (Except Fault) α} (hm : Maintains I m) (hf : ∀ a, Maintains I (f a)) :
    Maintains I (m >>= f) :=
  Ensures.bind hm hf

theorem get_bind {f : σ → StateT σ (Except Fault) α} (hf : ∀ s, I s → Maintains I (f s)) :
    Maintains I (get >>= f) :=
  fun s a s' hs h => hf s hs s a s' hs h

theorem foldlM {f : β → α → StateT σ (Except Fault) β} (h : ∀ b a, Maintains I (f b a)) (b : β)
    (xs : List α) : Maintains I (xs.foldlM f b) :=
  Ensures.foldlM (I := fun _ => I) h b xs

theorem mapM (h : ∀ a, Maintains I (f a)) (xs : List α) : Maintains I (xs.mapM f) := by
  induction xs with
  | nil => exact .pure []
  | cons x rest ih =>
    rw [List.mapM_cons]
    exact (h x).bind fun _ => ih.bind fun _ => .pure _

end Maintains

end Oberlet
