import LocalBook.Effect

/-! Procedures whose calls may go wrong in more than one way: what a call answers and does is a
relation, and the process may be cut off before any call in a state that allows it. -/
namespace LocalBook.Effect

variable {Op : Type} {Res : Op → Type} {ε ε' α β σ : Type}

abbrev Behaviour (Op : Type) (Res : Op → Type) (σ : Type) := (op : Op) → σ → Res op → σ → Prop

inductive Runs (does : Behaviour Op Res σ) (cuttable : σ → Prop) :
    Proc Op Res ε α → σ → Option (Except ε α) → σ → Prop where
  | cut {p : Proc Op Res ε α} {s : σ} (here : cuttable s) : Runs does cuttable p s none s
  | done {result : Except ε α} {s : σ} : Runs does cuttable (.done result) s (some result) s
  | call {op : Op} {next : Res op → Proc Op Res ε α} {s s' t : σ} {response : Res op}
    {outcome : Option (Except ε α)} (made : does op s response s')
    (rest : Runs does cuttable (next response) s' outcome t) :
    Runs does cuttable (.call op next) s outcome t

/-- Whatever the calls answer, every state on the way satisfies `I` and the end `Q`. -/
def Always (does : Behaviour Op Res σ) (I : σ → Prop) :
    Proc Op Res ε α → σ → (Except ε α → σ → Prop) → Prop
  | .done result,s,Q => I s ∧ Q result s
  | .call op next,s,Q => I s ∧ ∀ response s',does op s response s' →
    Always does I (next response) s' Q

section Rules

variable {does : Behaviour Op Res σ} {I : σ → Prop} {p : Proc Op Res ε α} {s : σ}
variable {Q Q' : Except ε α → σ → Prop}

theorem Always.start (always : Always does I p s Q) : I s := by
  cases p with
  | done result => exact always.1
  | call op next => exact always.1

theorem Always.imp (always : Always does I p s Q)
    (weaker : ∀ result t,I t → Q result t → Q' result t) : Always does I p s Q' := by
  induction p generalizing s with
  | done result => exact ⟨always.1,weaker result s always.1 always.2⟩
  | call op next ih => exact ⟨always.1,fun response s' made => ih _ (always.2 _ _ made)⟩

theorem Always.mono {J : σ → Prop} (always : Always does I p s Q) (weaker : ∀ t,I t → J t) :
    Always does J p s Q := by
  induction p generalizing s with
  | done result => exact ⟨weaker s always.1,always.2⟩
  | call op next ih =>
    exact ⟨weaker s always.1,fun response s' made => ih _ (always.2 _ _ made)⟩

theorem Always.andThen {k : Except ε α → Proc Op Res ε' β} {Q : Except ε' β → σ → Prop}
    (always : Always does I p s fun result t => Always does I (k result) t Q) :
    Always does I (p.andThen k) s Q := by
  induction p generalizing s with
  | done result => exact always.2
  | call op next ih => exact ⟨always.1,fun response s' made => ih _ (always.2 _ _ made)⟩

theorem Always.bind {f : α → Proc Op Res ε β} {Q : Except ε β → σ → Prop}
    (always : Always does I p s fun result t => match result with
      | .ok value => Always does I (f value) t Q
      | .error reason => Q (.error reason) t) : Always does I (p >>= f) s Q := by
  apply Always.andThen
  refine always.imp fun result t inv post => ?_
  cases result with
  | ok value => exact post
  | error reason => exact ⟨inv,post⟩

theorem always_perform {op : Op} {Q : Except ε (Res op) → σ → Prop} (inv : I s)
    (each : ∀ response s',does op s response s' → I s' ∧ Q (.ok response) s') :
    Always does I (Proc.perform op : Proc Op Res ε (Res op)) s Q := ⟨inv,each⟩

/-- A run of such a procedure, whether it ends or is cut off. -/
theorem Always.runs {cuttable : σ → Prop} {outcome : Option (Except ε α)} {t : σ}
    (run : Runs does cuttable p s outcome t) (always : Always does I p s Q) :
    I t ∧ (outcome = none → cuttable t) ∧ ∀ result,outcome = some result → Q result t := by
  induction run with
  | cut here => exact ⟨always.start,fun _ => here,by simp⟩
  | done => exact ⟨always.1,by simp,fun result same => by
      obtain rfl := Option.some.inj same
      exact always.2⟩
  | call made _ ih => exact ih (always.2 _ _ made)

section Whole

variable {outcome : Except ε α} {t : σ}

/-- A run that is not cut off. -/
abbrev Ran (does : Behaviour Op Res σ) (p : Proc Op Res ε α) (s : σ) (outcome : Except ε α)
    (t : σ) : Prop := Runs does (fun _ => False) p s (some outcome) t

theorem ran_done {result : Except ε α} :
    Ran does (.done result : Proc Op Res ε α) s outcome t ↔ outcome = result ∧ t = s := by
  constructor
  · intro ran
    cases ran
    exact ⟨rfl,rfl⟩
  · rintro ⟨rfl,rfl⟩
    exact .done

theorem ran_call {op : Op} {next : Res op → Proc Op Res ε α} :
    Ran does (.call op next) s outcome t ↔
      ∃ response s',does op s response s' ∧ Ran does (next response) s' outcome t := by
  constructor
  · intro ran
    cases ran with
    | call made rest => exact ⟨_,_,made,rest⟩
  · rintro ⟨response,s',made,rest⟩
    exact .call made rest

theorem ran_andThen {k : Except ε α → Proc Op Res ε' β} {outcome : Except ε' β} :
    Ran does (p.andThen k) s outcome t ↔
      ∃ result s',Ran does p s result s' ∧ Ran does (k result) s' outcome t := by
  induction p generalizing s with
  | done result => simp [Proc.andThen,ran_done]
  | call op next ih =>
    simp only [Proc.andThen,ran_call,ih]
    constructor
    · rintro ⟨response,s',made,result,s'',first,second⟩
      exact ⟨result,s'',⟨response,s',made,first⟩,second⟩
    · rintro ⟨result,s'',⟨response,s',made,first⟩,second⟩
      exact ⟨response,s',made,result,s'',first,second⟩

/-- A sequence goes on after a value, and ends with an exception. -/
theorem Ran.of_bind {f : α → Proc Op Res ε β} {outcome : Except ε β}
    (ran : Ran does (p >>= f) s outcome t) :
    (∃ value s',Ran does p s (.ok value) s' ∧ Ran does (f value) s' outcome t) ∨
      ∃ reason,outcome = .error reason ∧ Ran does p s (.error reason) t := by
  obtain ⟨result,s',first,second⟩ := ran_andThen.mp ran
  cases result with
  | ok value => exact .inl ⟨value,s',first,second⟩
  | error reason =>
    obtain ⟨rfl,rfl⟩ := ran_done.mp second
    exact .inr ⟨reason,rfl,first⟩

theorem Ran.of_bind_ok {f : α → Proc Op Res ε β} {value : β}
    (ran : Ran does (p >>= f) s (.ok value) t) :
    ∃ first s',Ran does p s (.ok first) s' ∧ Ran does (f first) s' (.ok value) t := by
  obtain found | ⟨reason,raised,_⟩ := ran.of_bind
  · exact found
  · cases raised

end Whole

/-- A plain run, when every call may do what the handler does. -/
theorem runs_handler {h : Handler Op Res σ} {cuttable : σ → Prop}
    (follows : ∀ op s,does op s (h op s).1 (h op s).2) :
    Runs does cuttable p s (some (run h p s).1) (run h p s).2 := by
  induction p generalizing s with
  | done result => exact .done
  | call op next ih => exact .call (follows op s) (ih _)

def Gives (P : α → Prop) : Except ε α → Prop
  | .ok value => P value
  | .error _ => True

/-- Every state satisfies `I`, and a returned value `P`. -/
def Stays (does : Behaviour Op Res σ) (I : σ → Prop) (p : Proc Op Res ε α) (s : σ)
    (P : α → Prop) : Prop := Always does I p s fun result _ => Gives P result

variable {P : α → Prop} {P' : β → Prop}

theorem stays_pure {value : α} (inv : I s) (post : P value) :
    Stays does I (pure value : Proc Op Res ε α) s P := ⟨inv,post⟩

theorem stays_throw {reason : ε} (inv : I s) :
    Stays does I (Proc.throw reason : Proc Op Res ε α) s P := ⟨inv,trivial⟩

theorem stays_raiseIf {c : Prop} [Decidable c] {reason : ε} {P : Unit → Prop} (inv : I s)
    (post : P ()) : Stays does I (Proc.raiseIf c reason : Proc Op Res ε Unit) s P := by
  unfold Proc.raiseIf
  split
  · exact stays_throw inv
  · exact stays_pure inv post

theorem Stays.andThen {k : Except ε α → Proc Op Res ε' β} (first : Stays does I p s P)
    (second : ∀ result t,I t → Gives P result → Stays does I (k result) t P') :
    Stays does I (p.andThen k) s P' := Always.andThen (first.imp second)

theorem Stays.bind {f : α → Proc Op Res ε β} (first : Stays does I p s P)
    (second : ∀ value t,I t → P value → Stays does I (f value) t P') :
    Stays does I (p >>= f) s P' := by
  refine Stays.andThen first fun result t inv post => ?_
  cases result with
  | ok value => exact second value t inv post
  | error reason => exact stays_throw inv

theorem Stays.tryCatch {handler : ε → Proc Op Res ε' α} (first : Stays does I p s P)
    (second : ∀ reason t,I t → Stays does I (handler reason) t P) :
    Stays does I (p.tryCatch handler) s P := by
  refine Stays.andThen first fun result t inv post => ?_
  cases result with
  | ok value => exact stays_pure inv post
  | error reason => exact second reason t inv

end Rules

end LocalBook.Effect
