import Mathlib.Data.List.Basic

/-! Operations that touch a shared state one atomic section at a time. An operation may
run alone to its end, or its sections may alternate with those of others. -/
namespace MipsElfExec.Section

inductive Prog (α ρ τ : Type) where
  | done (result : τ)
  | step (a : α) (next : ρ → Prog α ρ τ)

section
variable {α ρ τ σ : Type} (exec : α → σ → ρ × σ)

def Prog.run : Prog α ρ τ → σ → τ × σ
  | .done result,s => (result,s)
  | .step a next,s => (next (exec a s).1).run (exec a s).2

def Prog.Meets (P : σ → α → Prop) : Prog α ρ τ → σ → Prop
  | .done _,_ => True
  | .step a next,s => P s a ∧ (next (exec a s).1).Meets P (exec a s).2

def advance (s : σ) (threads : List (Prog α ρ τ)) (n : Nat) : Option (σ × List (Prog α ρ τ)) :=
  match threads[n]? with
  | some (.step a next) => some ((exec a s).2,threads.set n (next (exec a s).1))
  | _ => none

variable {exec}

theorem runKeeps {I : σ → Prop} {P : σ → α → Prop} (kept : ∀ {s a},I s → P s a → I (exec a s).2)
    {p : Prog α ρ τ} {s} (start : I s) (meets : p.Meets exec P s) : I (p.run exec s).2 := by
  induction p generalizing s with
  | done result => exact start
  | step a next ih => exact ih _ (kept start meets.1) meets.2

theorem meetsAll {P : σ → α → Prop} (all : ∀ s a,P s a) (p : Prog α ρ τ) (s : σ) : p.Meets exec P s := by
  induction p generalizing s with
  | done result => trivial
  | step a next ih => exact ⟨all s a,ih _ _⟩

theorem advanceSection {s t : σ} {threads later : List (Prog α ρ τ)} {n}
    (h : advance exec s threads n = some (t,later)) :
    ∃ a next,threads[n]? = some (.step a next) ∧ t = (exec a s).2 ∧ later = threads.set n (next (exec a s).1) := by
  unfold advance at h
  split at h <;> try contradiction
  rename_i a next here
  cases Option.some.inj h
  exact ⟨a,next,here,rfl,rfl⟩

end

end MipsElfExec.Section
