import Mathlib.Data.List.Basic

/-! Runs of a system that takes one event at a time: what every step of a run does,
told from what one step does. -/
namespace MipsElfExec.Run

section
variable {σ ε : Type} (step : σ → ε → Option σ)

def Along (P : σ → ε → σ → Prop) : σ → List ε → Prop
  | _,[] => True
  | s,e :: es => ∀ t,step s e = some t → P s e t ∧ Along P t es

def run : σ → List ε → Option σ
  | s,[] => some s
  | s,e :: es => (step s e).bind fun t => run t es

def both (s : σ × σ) (e : ε) : Option (σ × σ) := (step s.1 e).bind fun t => (step s.2 e).map fun t' => (t,t')

variable {step}

theorem bothSome {s t : σ × σ} {e : ε} (next : both step s e = some t) : step s.1 e = some t.1 ∧ step s.2 e = some t.2 := by
  obtain ⟨u,first,rest⟩ := Option.bind_eq_some_iff.mp next
  obtain ⟨u',second,same⟩ := Option.map_eq_some_iff.mp rest
  cases same
  exact ⟨first,second⟩

instance decidableAlong {P : σ → ε → σ → Prop} [∀ s e t,Decidable (P s e t)] :
    (s : σ) → (es : List ε) → Decidable (Along step P s es)
  | _,[] => .isTrue trivial
  | s,e :: es =>
    match next : step s e with
    | none => .isTrue fun t same => nomatch next.symm.trans same
    | some t =>
      have := decidableAlong (P := P) t es
      decidable_of_iff (P s e t ∧ Along step P t es)
        ⟨fun both u same => by cases next.symm.trans same; exact both,fun all => all t next⟩

theorem alongTrue (s : σ) (es : List ε) : Along step (fun _ _ _ => True) s es := by
  induction es generalizing s with
  | nil => trivial
  | cons e es ih => exact fun t _ => ⟨trivial,ih t⟩

theorem alongImp {P Q : σ → ε → σ → Prop} (weaker : ∀ {s e t},P s e t → Q s e t) {s es} (all : Along step P s es) :
    Along step Q s es := by
  induction es generalizing s with
  | nil => trivial
  | cons e es ih => exact fun t next => ⟨weaker (all t next).1,ih (all t next).2⟩

theorem alongRest {P : σ → ε → σ → Prop} {s es fs t} (all : Along step P s (es ++ fs)) (path : run step s es = some t) :
    Along step P t fs := by
  induction es generalizing s with
  | nil => exact Option.some.inj path ▸ all
  | cons e es ih =>
    obtain ⟨u,next,rest⟩ := Option.bind_eq_some_iff.mp path
    exact ih (all u next).2 rest

theorem alongInvariant {I : σ → Prop} {P Q : σ → ε → σ → Prop}
    (kept : ∀ {s e t},I s → P s e t → step s e = some t → I t ∧ Q s e t)
    {s es} (start : I s) (all : Along step P s es) : Along step Q s es := by
  induction es generalizing s with
  | nil => trivial
  | cons e es ih =>
    intro t next
    obtain ⟨here,rest⟩ := all t next
    obtain ⟨inv,done⟩ := kept start here next
    exact ⟨done,ih inv rest⟩

theorem alongIff {I : σ → Prop} {P Q : σ → ε → σ → Prop} (kept : ∀ {s e t},I s → step s e = some t → I t ∧ (P s e t ↔ Q s e t))
    {s es} (start : I s) : Along step P s es ↔ Along step Q s es :=
  ⟨alongInvariant (fun inv good next => ⟨(kept inv next).1,(kept inv next).2.mp good⟩) start,
    alongInvariant (fun inv good next => ⟨(kept inv next).1,(kept inv next).2.mpr good⟩) start⟩

theorem alongStepExact {I : σ → Prop} {P : σ → ε → σ → Prop} {C : σ → ε → Prop}
    (exact_ : ∀ {s e t},I s → step s e = some t → (P s e t ↔ C s e) ∧ (P s e t → I t)) {s es} (start : I s) :
    Along step P s es ↔ Along step (fun s e _ => C s e) s es := by
  induction es generalizing s with
  | nil => exact Iff.rfl
  | cons e es ih =>
    constructor
    · intro all t next
      obtain ⟨here,rest⟩ := all t next
      obtain ⟨iff,inv⟩ := exact_ start next
      exact ⟨iff.mp here,(ih (inv here)).mp rest⟩
    · intro all t next
      obtain ⟨here,rest⟩ := all t next
      obtain ⟨iff,inv⟩ := exact_ start next
      have good := iff.mpr here
      exact ⟨good,(ih (inv good)).mpr rest⟩

theorem alongExact {I P : σ → Prop} {C : σ → ε → Prop}
    (exact_ : ∀ {s e t},I s → step s e = some t → (P t ↔ C s e) ∧ (P t → I t)) {s es} (start : I s) :
    Along step (fun _ _ t => P t) s es ↔ Along step (fun s e _ => C s e) s es :=
  alongStepExact exact_ start

theorem alongEvents {C : ε → Prop} (goes : ∀ s e,∃ t,step s e = some t) (s : σ) (es : List ε) :
    Along step (fun _ e _ => C e) s es ↔ ∀ e ∈ es,C e := by
  induction es generalizing s with
  | nil => exact iff_of_true trivial nofun
  | cons e es ih =>
    rw [List.forall_mem_cons]
    constructor
    · intro all
      obtain ⟨t,next⟩ := goes s e
      obtain ⟨here,rest⟩ := all t next
      exact ⟨here,(ih t).mp rest⟩
    · intro both t _
      exact ⟨both.1,(ih t).mpr both.2⟩

theorem runAppend {s t u : σ} {es fs : List ε} (first : run step s es = some t) (last : run step t fs = some u) :
    run step s (es ++ fs) = some u := by
  induction es generalizing s with
  | nil =>
    cases first
    exact last
  | cons e es ih =>
    obtain ⟨v,next,rest⟩ := Option.bind_eq_some_iff.mp first
    exact Option.bind_eq_some_iff.mpr ⟨v,next,ih rest⟩

theorem runExact {I P : σ → Prop} {C : σ → ε → Prop} (kept : ∀ {s e t},I s → step s e = some t → I t)
    (exact_ : ∀ {s e t},I s → P s → step s e = some t → (P t ↔ C s e))
    (stays : ∀ {s e t},I s → ¬P s → step s e = some t → ¬P t) {s es t} (start : I s) (good : P s)
    (path : run step s es = some t) : P t ↔ Along step (fun s e _ => C s e) s es := by
  have bad (es : List ε) : ∀ s,I s → ¬P s → run step s es = some t → ¬P t := by
    induction es with
    | nil => exact fun s _ bad path => Option.some.inj path ▸ bad
    | cons e es ih =>
      intro s start bad path
      obtain ⟨u,next,rest⟩ := Option.bind_eq_some_iff.mp path
      exact ih u (kept start next) (stays start bad next) rest
  induction es generalizing s with
  | nil => exact iff_of_true (Option.some.inj path ▸ good) trivial
  | cons e es ih =>
    obtain ⟨u,next,rest⟩ := Option.bind_eq_some_iff.mp path
    have one := exact_ start good next
    rcases Classical.em (P u) with fine | lost
    · refine (ih (kept start next) fine rest).trans ⟨fun along v same => ?_,fun along => (along u next).2⟩
      cases Option.some.inj (next.symm.trans same)
      exact ⟨one.mp fine,along⟩
    · exact iff_of_false (bad es u (kept start next) lost rest) fun along => lost (one.mpr (along u next).1)

theorem runInvariant {I : σ → Prop} {P : σ → ε → σ → Prop}
    (kept : ∀ {s e t},I s → P s e t → step s e = some t → I t) {s es t} (start : I s)
    (all : Along step P s es) (path : run step s es = some t) : I t := by
  induction es generalizing s with
  | nil => exact Option.some.inj path ▸ start
  | cons e es ih =>
    obtain ⟨u,next,rest⟩ := Option.bind_eq_some_iff.mp path
    obtain ⟨here,later⟩ := all u next
    exact ih (kept start here next) later rest

end

end MipsElfExec.Run
