import Oberlet.Proofs.Compilation

/-!
# Control flow is preserved
-/

namespace Oberlet

open Llvm Lowering

/-! ## EXIT statements -/

namespace Behavior

/-- No run ends with an EXIT whose loop is further out. -/
def Stays (behavior : Behavior) : Prop :=
  ∀ answers events rest, ¬ behavior answers events (.exit rest)

theorem Stays.seq {first second : Behavior} (hfirst : first.Stays) (hsecond : second.Stays) :
    (Seq first second).Stays := by
  intro answers events rest h
  cases h with
  | next _ h => exact hsecond _ _ _ h
  | exit h => exact hfirst _ _ _ h

theorem Stays.choice (cond : Expr) {yes no : Behavior} (hyes : yes.Stays) (hno : no.Stays) :
    (Choice cond yes no).Stays := by
  intro answers events rest h
  cases h with
  | yes h => exact hyes _ _ _ h
  | no h => exact hno _ _ _ h

theorem Stays.loop (cond : Expr) (body : Behavior) : (While cond body).Stays := by
  intro answers events rest h
  generalize hending : Ending.exit rest = ending at h
  induction h with
  | again _ _ ih => exact ih hending
  | _ => cases hending

end Behavior

variable {halts : String → Bool} {stmts : List Stmt}

end Oberlet
