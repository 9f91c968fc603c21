import MipsElfExec.Adv.Isolation

/-! The advertisement filter before any ad string is set. The test for an ad string is a test of the address of an
array, which always holds, and an empty string is found in every packet. -/
namespace MipsElfExec.Adv
open CString Run

def Event.view (e : Event) : Pkt := e.packets.head?.getD e.bare

def Relay.forwards (s : Relay) (e : Event) (t : Relay) : Prop :=
  (ngxHttpVfDeal s.toAdFilter e (s.marked e)).2 = (s.marked e).flatten ∧ t.appFlags = s.appFlags ∧
    t.bigVfBuf = s.bigVfBuf ∧ t.bifVfLen = s.bifVfLen

structure Relay.Unset (s : Relay) : Prop where
  empty : s.advStr = []
  plain : ∀ pair side,s.appFlags pair side = .none

def Event.unseen (e : Event) : Prop := e.packets = [] ∧ e.shutdown = false ∨ e.view.data.length ≤ 8

instance (e : Event) : Decidable e.unseen := by unfold Event.unseen; infer_instance

section steps
variable {s t : Relay} {e : Event}

theorem emptyMatches (unset : s.Unset) : vfMatches s.toAdFilter e = decide (8 < e.view.data.length) := by
  have found : (strstr (e.view.data ++ e.view.behind) s.advStr).isSome = true := by
    rw [unset.empty,strstr,← List.nil_append (cstr _),searchSelf]
    rfl
  change (decide (8 < e.view.data.length) && (strstr (e.view.data ++ e.view.behind) s.advStr).isSome) = _
  rw [found,Bool.and_true]

theorem unsetDeal (unset : s.Unset) : ngxHttpVfDeal s.toAdFilter e (s.marked e) =
    if e.packets = [] ∧ e.shutdown = false then (s.toAdFilter,[])
    else if 8 < e.view.data.length then
      ({ s.toAdFilter with bigVfBuf := [],bifVfLen := 0 }.setFlags e.pair e.side.other .proxyData,(s.marked e).flatten)
    else (s.toAdFilter,(s.marked e).flatten) := by
  unfold ngxHttpVfDeal vfForward
  simp [unset.plain,emptyMatches unset]

theorem forwardsExactly (unset : s.Unset) (next : s.step e = some t) :
    (s.forwards e t ↔ e.unseen) ∧ (s.forwards e t → t.Unset) := by
  have after : t = s.after e (ngxHttpVfDeal s.toAdFilter e (s.marked e)) := (Option.some.inj next).symm
  have deal := unsetDeal (e := e) unset
  split at deal
  · rename_i quiet
    rw [deal,quietSame s quiet.1] at after
    subst t
    have nothing : (s.marked e).flatten = [] := by simp [Relay.marked,quiet.1,markAll]
    refine ⟨iff_of_true ⟨?_,rfl,rfl,rfl⟩ (.inl quiet),fun _ => unset⟩
    rw [deal,nothing]
  · rename_i active
    split at deal
    · rename_i long
      have changed : ¬s.forwards e t := by
        rintro ⟨-,flags,-⟩
        have here : t.appFlags e.pair e.side.other = .proxyData := by
          rw [after,deal]
          exact if_pos ⟨rfl,rfl⟩
        rw [flags,unset.plain] at here
        cases here
      have seen : ¬e.unseen := not_or.mpr ⟨active,Nat.not_le.mpr long⟩
      exact ⟨iff_of_false changed seen,fun forwards => absurd forwards changed⟩
    · rename_i short
      rw [deal] at after
      subst t
      refine ⟨iff_of_true ⟨?_,rfl,rfl,rfl⟩ (.inr (Nat.not_lt.mp short)),fun _ => ⟨unset.empty,unset.plain⟩⟩
      rw [deal]

end steps

section runs
variable {s : Relay}

/-- Over any events of both directions, the filter stays out of the way exactly when it never looks into a packet. -/
theorem unsetForwardsExactly (unset : s.Unset) (events : List Event) :
    Along Relay.step (fun s e t => s.forwards e t) s events ↔ ∀ e ∈ events,e.unseen := by
  rw [alongStepExact (I := Relay.Unset) (C := fun _ e => e.unseen) (fun unset next => forwardsExactly unset next) unset]
  exact alongEvents (fun s e => ⟨_,rfl⟩) s events

end runs

theorem unsetStart : (Relay.start []).Unset := ⟨rfl,fun _ _ => rfl⟩

def shortPacket : Event := ⟨0,.client,false,[⟨ascii "GET /a b",[]⟩],⟨[],[]⟩⟩

theorem unsetForwardsShort : Along Relay.step (fun s e t => s.forwards e t) (.start []) [shortPacket] :=
  (unsetForwardsExactly unsetStart [shortPacket]).mpr (by decide)

theorem unsetGathers : (run Relay.step (.start []) [adRequest 0,adAnswer 0 false "abc"]).map (fun t =>
      (t.appFlags 0 .server,text t.held,text (t.delivered 0))) = some (.proxyData,ascii "abc",[]) ∧
    ¬Along Relay.step (fun s e t => s.forwards e t) (.start []) [adRequest 0,adAnswer 0 false "abc"] := by
  refine ⟨by decide,fun all => ?_⟩
  obtain ⟨⟨-,flags,-⟩,-⟩ := all _ rfl
  have changed := congrFun (congrFun flags 0) .server
  revert changed
  decide

end MipsElfExec.Adv
