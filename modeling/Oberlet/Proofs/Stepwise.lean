/-!
# Operations one after the other
-/

namespace Oberlet.Stepwise

variable {σ τ ι ο : Type} (step : σ → ι → ο × σ)

/-- The state behind a sequence of operations. -/
def after (s : σ) : List ι → σ
  | [] => s
  | op :: ops => after (step s op).2 ops

/-- The answers to a sequence of operations. -/
def replies (s : σ) : List ι → List ο
  | [] => []
  | op :: ops => (step s op).1 :: replies (step s op).2 ops

theorem after_append (s : σ) (front back : List ι) :
    after step s (front ++ back) = after step (after step s front) back := by
  induction front generalizing s with
  | nil => rfl
  | cons op ops ih => exact ih _

variable {step} {step' : τ → ι → ο × τ} {R : σ → τ → Prop}

/-- States that are related step by step give the same answers. -/
theorem replies_eq_of_simulation
    (hstep : ∀ s t op, R s t → (step s op).1 = (step' t op).1 ∧ R (step s op).2 (step' t op).2)
    {s : σ} {t : τ} (h : R s t) (ops : List ι) : replies step s ops = replies step' t ops := by
  induction ops generalizing s t with
  | nil => rfl
  | cons op ops ih =>
    obtain ⟨hreply, hnext⟩ := hstep s t op h
    rw [replies, replies, hreply, ih hnext]

theorem length_replies (s : σ) (ops : List ι) : (replies step s ops).length = ops.length := by
  induction ops generalizing s with
  | nil => rfl
  | cons op ops ih => simp [replies, ih]

section

variable {Q : σ → σ → Prop} {P : ι → Bool}
  (hkept : ∀ s t op, P op → Q s t → (step s op).1 = (step t op).1 ∧ Q (step s op).2 (step t op).2)
  (hleft : ∀ s t op, P op = false → Q s t → Q (step s op).2 t)
include hkept hleft

theorem history_filter {s t : σ} (h : Q s t) (ops : List ι) :
    (ops.filter P).zip (replies step t (ops.filter P)) =
      (ops.zip (replies step s ops)).filter fun entry => P entry.1 := by
  induction ops generalizing s t with
  | nil => rfl
  | cons op ops ih =>
    rw [replies, List.zip_cons_cons]
    cases hop : P op with
    | false =>
      rw [List.filter_cons_of_neg (by simp [hop]), List.filter_cons_of_neg (by simp [hop])]
      exact ih (hleft s t op hop h)
    | true =>
      obtain ⟨hreply, hnext⟩ := hkept s t op hop h
      rw [List.filter_cons_of_pos hop, List.filter_cons_of_pos (by simpa using hop), replies,
        List.zip_cons_cons, hreply, ih hnext]

/-- Operations that cannot be noticed can be left out. -/
theorem replies_filter {s t : σ} (h : Q s t) (ops : List ι) : replies step t (ops.filter P) =
    ((ops.zip (replies step s ops)).filter fun entry => P entry.1).map Prod.snd := by
  rw [← history_filter hkept hleft h, List.map_snd_zip (by simp [length_replies])]

end

end Oberlet.Stepwise
