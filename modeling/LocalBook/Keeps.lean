import LocalBook.Effect

/-! Procedures that may be cut off after any call: what holds of every state on the way, of
the state a normal end leaves and of the state an exception leaves. -/
namespace LocalBook.Effect

variable {Op : Type} {Res : Op → Type} {ε α β σ : Type}
variable (h : Handler Op Res σ) (onTheWay raised : σ → Prop)

/-- Every state of a run is as `onTheWay` says, the state behind an exception as `raised`
says and the one behind a returned value as `Q` says. -/
def Keeps : Proc Op Res ε α → σ → (α → σ → Prop) → Prop
  | .done (.ok value),s,Q => onTheWay s ∧ Q value s
  | .done (.error _),s,_ => onTheWay s ∧ raised s
  | .call op next,s,Q => onTheWay s ∧ Keeps (next (h op s).1) (h op s).2 Q

variable {h onTheWay raised} {p : Proc Op Res ε α} {s : σ} {Q Q' : α → σ → Prop}

theorem keeps_pure {value : α} (here : onTheWay s) (post : Q value s) :
    Keeps h onTheWay raised (pure value : Proc Op Res ε α) s Q := ⟨here,post⟩

theorem Keeps.bind {f : α → Proc Op Res ε β} {Q : β → σ → Prop}
    (first : Keeps h onTheWay raised p s fun value t => Keeps h onTheWay raised (f value) t Q) :
    Keeps h onTheWay raised (p >>= f) s Q := by
  induction p generalizing s with
  | done result =>
    cases result with
    | ok value => exact first.2
    | error reason => exact first
  | call op next ih => exact ⟨first.1,ih _ first.2⟩

theorem Keeps.imp (keeps : Keeps h onTheWay raised p s Q)
    (weaker : ∀ value t, Q value t → Q' value t) : Keeps h onTheWay raised p s Q' := by
  induction p generalizing s with
  | done result =>
    cases result with
    | ok value => exact ⟨keeps.1,weaker value s keeps.2⟩
    | error reason => exact keeps
  | call op next ih => exact ⟨keeps.1,ih _ keeps.2⟩

theorem Keeps.mono {onTheWay' raised' : σ → Prop} (keeps : Keeps h onTheWay raised p s Q)
    (way : ∀ t, onTheWay t → onTheWay' t) (raising : ∀ t, raised t → raised' t) :
    Keeps h onTheWay' raised' p s Q := by
  induction p generalizing s with
  | done result =>
    cases result with
    | ok value => exact ⟨way s keeps.1,keeps.2⟩
    | error reason => exact ⟨way s keeps.1,raising s keeps.2⟩
  | call op next ih => exact ⟨way s keeps.1,ih _ keeps.2⟩

theorem Keeps.then {f : α → Proc Op Res ε β} {Q : α → σ → Prop} {Q' : β → σ → Prop}
    (first : Keeps h onTheWay raised p s Q)
    (second : ∀ value t, Q value t → Keeps h onTheWay raised (f value) t Q') :
    Keeps h onTheWay raised (p >>= f) s Q' :=
  (first.imp second).bind

/-- Whenever the run is cut off, it leaves a state on the way. -/
theorem Keeps.crash (keeps : Keeps h onTheWay raised p s Q) (n : Nat) :
    onTheWay (crash h n p s) := by
  induction p generalizing s n with
  | done result =>
    rw [crash_done]
    cases result <;> exact keeps.1
  | call op next ih =>
    cases n with
    | zero => exact keeps.1
    | succ n => exact ih _ keeps.2 n

/-- A run that ends leaves what was promised for its end. -/
theorem Keeps.run (keeps : Keeps h onTheWay raised p s Q) :
    match run h p s with
    | (.ok value,t) => onTheWay t ∧ Q value t
    | (.error _,t) => onTheWay t ∧ raised t := by
  induction p generalizing s with
  | done result => cases result <;> exact keeps
  | call op next ih => exact ih _ keeps.2

end LocalBook.Effect
