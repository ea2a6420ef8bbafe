import TypedConfig.Proofs.Bind.Congruence

/-!
# The handlers that come with binding

They let every name start and every value pass (`Handler.Builtin.onStart`, `Handler.Builtin.onSuccess`,
`Handler.Builtin.onCreate`). A failure they pass on or make into the value that is there
(`Handler.Builtin.onFailure_yields`), and at the end of the root they may refuse leftovers. So two runs
that agree on leftovers agree in all that such a handler decides (`Handler.Builtin.agree`).
-/

namespace TypedConfig.Handler

open BindM Binder

/-- The handlers that come with binding. -/
inductive Builtin : Handler → Prop
  | default : Builtin .default
  | ignoreErrors {parent : Handler} (h : Builtin parent) : Builtin (.ignoreErrors parent)
  | noUnbound {parent : Handler} (h : Builtin parent) : Builtin (.noUnbound parent)

namespace Builtin

variable {m : Comparison} {handler : Handler} {v v' : Visit}

theorem onStart (h : handler.Builtin) (v : Visit) : handler.onStart v = pure true := by
  induction h with
  | default => rfl
  | ignoreErrors _ ih | noUnbound _ ih => exact ih

theorem onSuccess (h : handler.Builtin) (v : Visit) (value : Value) :
    handler.onSuccess v value = pure value := by
  induction h with
  | default => rfl
  | ignoreErrors _ ih | noUnbound _ ih => exact ih

theorem onCreate (h : handler.Builtin) (v : Visit) (value : Value) :
    handler.onCreate v value = pure value := by
  induction h with
  | default => rfl
  | ignoreErrors _ ih | noUnbound _ ih => exact ih

/-- What they recover with from a failure is the value that is there already. -/
theorem onFailure_yields (h : handler.Builtin) (v : Visit) (e : BindError) :
    (handler.onFailure v e).Yields (· = v.target.existing?) := by
  induction h with
  | default => exact .raise e
  | ignoreErrors _ ih =>
    refine ih.attempt.bind fun r hr => ?_
    cases r with
    | ok recovered => exact .ret (hr recovered rfl)
    | error _ => exact .ret rfl
  | noUnbound _ ih => exact ih

/-- Below the root they have nothing to say at the end. -/
theorem onFinish_below (h : handler.Builtin) (hd : v.depth ≠ 0) (result : Option Value)
    (unseen : List Name) : handler.onFinish v result unseen = pure () := by
  induction h with
  | default => rfl
  | ignoreErrors _ ih => exact ih
  | noUnbound _ ih =>
    unfold Handler.onFinish
    rw [ih, if_neg hd]
    rfl

/-- They decide alike at two names, if the check for leftovers does. -/
theorem agree (h : handler.Builtin) (hm : ∀ e, ¬m.excuses e) (hdepth : v.depth = v'.depth)
    (htarget : v.target = v'.target)
    (hleft : v.depth = 0 → Agree m Eq (refuseLeftovers v []) (refuseLeftovers v' [])) :
    AgreeOnVisits m handler handler v v' := by
  induction h with
  | default => exact .default _ _
  | ignoreErrors _ ih =>
    refine ⟨⟨ih.start, ih.success, ih.create⟩, fun e e' he => ?_, ih.finish,
      fun e he => absurd he (hm e)⟩
    exact (ih.failure e e' he).attempt_bind (fun _ _ hr => .ret hr)
      (fun _ _ _ => .ret (by rw [htarget])) fun e he => absurd he (hm e)
  | noUnbound _ ih =>
    refine ⟨⟨ih.start, ih.success, ih.create⟩, ih.failure, fun result => ?_,
      fun e he => absurd he (hm e)⟩
    refine (ih.finish result).seq fun _ => ?_
    rw [← hdepth]
    by_cases hd : v.depth = 0
    · rw [if_pos hd, if_pos hd]
      exact hleft hd
    · rw [if_neg hd, if_neg hd]
      exact .ret rfl

end Builtin

end TypedConfig.Handler
