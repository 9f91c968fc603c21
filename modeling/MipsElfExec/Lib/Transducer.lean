import Mathlib.Data.List.Basic

/-! Consumers of a growing input. A step eats a nonempty prefix of what has
arrived and never looks at what has not; the rest waits for more input. -/
namespace MipsElfExec.Transducer

structure Machine (σ α : Type) where
  step : σ → List α → Option (σ × List α)
  shrinks : ∀ {s xs t ys}, step s xs = some (t,ys) → ys.length < xs.length
  waits : ∀ {s xs t ys}, step s xs = some (t,ys) → ∀ zs, step s (xs ++ zs) = some (t,ys ++ zs)

variable {σ α : Type} (m : Machine σ α)

def Machine.drain (s : σ) (xs : List α) : σ × List α :=
  match h : m.step s xs with
  | none => (s,xs)
  | some (t,ys) =>
    have : ys.length < xs.length := m.shrinks h
    drain t ys
termination_by xs.length

theorem drainIdle {s xs} (h : m.step s xs = none) : m.drain s xs = (s,xs) := by
  unfold Machine.drain
  split
  · rfl
  · rename_i same
    simp [h] at same

theorem drainStep {s xs t ys} (h : m.step s xs = some (t,ys)) : m.drain s xs = m.drain t ys := by
  rw [Machine.drain.eq_1]
  split
  · rename_i same
    simp [h] at same
  · rename_i same
    rw [h] at same
    cases Option.some.inj same
    rfl

theorem drainInduction {P : σ → List α → Prop}
    (idle : ∀ s xs, m.step s xs = none → P s xs)
    (more : ∀ s xs t ys, m.step s xs = some (t,ys) → P t ys → P s xs) (s xs) : P s xs := by
  induction n : xs.length using Nat.strongRecOn generalizing s xs with
  | ind n ih =>
    cases h : m.step s xs with
    | none => exact idle s xs h
    | some r => exact more s xs r.1 r.2 h (ih _ (n ▸ m.shrinks h) _ _ rfl)

theorem drainInvariant {P : σ → Prop} (kept : ∀ s xs t ys, P s → m.step s xs = some (t,ys) → P t) {s} (start : P s)
    (xs) : P (m.drain s xs).1 := by
  refine drainInduction m (P := fun s xs => P s → P (m.drain s xs).1) ?_ ?_ s xs start
  · intro s xs h start
    rw [drainIdle m h]
    exact start
  · intro s xs t ys h ih start
    rw [drainStep m h]
    exact ih (kept s xs t ys start h)

theorem drainMap {f : σ → σ} (blind : ∀ s xs, m.step (f s) xs = (m.step s xs).map fun r => (f r.1,r.2)) (s xs) :
    m.drain (f s) xs = (f (m.drain s xs).1,(m.drain s xs).2) := by
  refine drainInduction m (P := fun s xs => m.drain (f s) xs = (f (m.drain s xs).1,(m.drain s xs).2)) ?_ ?_ s xs
  · intro s xs h
    rw [drainIdle m h,drainIdle m (by rw [blind,h,Option.map_none])]
  · intro s xs t ys h ih
    have step : m.step (f s) xs = some (f t,ys) := by rw [blind,h,Option.map_some]
    rw [drainStep m h,drainStep m step]
    exact ih

theorem drainStuck (s xs) : m.step (m.drain s xs).1 (m.drain s xs).2 = none := by
  refine drainInduction m (P := fun s xs => m.step (m.drain s xs).1 (m.drain s xs).2 = none) ?_ ?_ s xs
  · intro s xs h
    rw [drainIdle m h]
    exact h
  · intro s xs t ys h ih
    rw [drainStep m h]
    exact ih

theorem drainAppend (s xs ys) :
    m.drain s (xs ++ ys) = m.drain (m.drain s xs).1 ((m.drain s xs).2 ++ ys) := by
  refine drainInduction m (P := fun s xs => m.drain s (xs ++ ys) =
    m.drain (m.drain s xs).1 ((m.drain s xs).2 ++ ys)) ?_ ?_ s xs
  · intro s xs h
    rw [drainIdle m h]
  · intro s xs t zs h ih
    rw [drainStep m h,drainStep m (m.waits h ys)]
    exact ih

end MipsElfExec.Transducer
