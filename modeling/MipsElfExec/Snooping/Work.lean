import MipsElfExec.Snooping.Steps

/-! What the write task makes of the entry it holds: it finishes with an entry that needs
nothing more, and calls for or queues any other. -/
namespace MipsElfExec.Snooping

variable {ctx ctx' : Ctx} {id : UrlId} {fd : Bool} {i : Nat}

def UrlEntry.parseNeeded (e : UrlEntry) : Bool := e.cacheFlg.actionUpparse && !e.urlFlags.ngxParseOk

def UrlEntry.downNeeded (e : UrlEntry) : Bool := e.cacheFlg.actionCacheUpstream && !e.urlFlags.ngxDown

def UrlEntry.written (e : UrlEntry) (outcome : WriteOutcome) : Bool :=
  e.urlFlags.resCache && e.urlFlags.cacheBufAlloc && e.urlResLen == e.urlDataLen && outcome == .saved

def UrlEntry.ready (e : UrlEntry) (outcome : WriteOutcome) : Bool :=
  (e.urlFlags.resLfok || e.urlFlags.resLfb) && (!e.cacheFlg.spWrite || e.urlFlags.resWrite || e.written outcome) &&
    (!e.parseNeeded && !e.downNeeded)

def UrlEntry.answered (e : UrlEntry) (action : Sp2cAction) (ok : Bool) : Bool :=
  ok && (action != .parse || !e.downNeeded)

inductive Handled (ctx : Ctx) (fd : Bool) (i : Nat) (id : UrlId) (ready : Bool) : Written → Prop where
  | finish {last : Ctx} (due : ready = true) (still : Still ctx last) : Handled ctx fd i id ready (writeFinish last fd i id)
  | call {last : Ctx} {action} (early : ready = false) (still : Still ctx last) :
    Handled ctx fd i id ready (last,.calling fd i id action,none)
  | queue {mid last : Ctx} {tick out} (early : ready = false) (before : Still ctx mid)
    (after : Still (httpUrlCacheAdd mid id tick) last) : Handled ctx fd i id ready (last,.pass fd i,out)

theorem handledAfter {ready : Bool} {w : Written} (before : Still ctx ctx') (rest : Handled ctx' fd i id ready w) :
    Handled ctx fd i id ready w := by
  cases rest with
  | finish due still => exact .finish due (stillTrans before still)
  | call early still => exact .call early (stillTrans before still)
  | queue early first after => exact .queue early (stillTrans before first) after

theorem requeueHandled (ctx : Ctx) (fd : Bool) (i : Nat) (id : UrlId) (tick : Nat) :
    Handled ctx fd i id false (requeue ctx fd i id tick) :=
  .queue rfl (stillRefl ctx) (stillRefl _)

theorem sendHandled (hz : Nat) (ctx : Ctx) (fd : Bool) (i : Nat) (id : UrlId) (action : Sp2cAction) :
    Handled ctx fd i id false (sp2cSend hz ctx fd i id action) := by
  refine .queue rfl ?_ (stillFlags rfl)
  split
  · exact stillModify rfl
  · exact stillRefl ctx

theorem downHandled (hz : Nat) (ctx : Ctx) (fd : Bool) (i : Nat) (id : UrlId) :
    Handled ctx fd i id (!(ctx.urls id).downNeeded) (writeDown hz ctx fd i id) := by
  unfold writeDown
  split
  · rename_i due
    have need : (ctx.urls id).downNeeded = true := by simp [UrlEntry.downNeeded,due]
    rw [need]
    split
    · exact .call rfl (stillRefl ctx)
    · exact sendHandled hz ctx fd i id .down
  · rename_i done
    have none_ : (ctx.urls id).downNeeded = false := by
      unfold UrlEntry.downNeeded
      rcases not_and_or.mp done with other | set
      · simp [Bool.eq_false_of_not_eq_true other]
      · simp [Bool.eq_true_of_not_eq_false set]
    rw [none_]
    exact .finish rfl (stillRefl ctx)

theorem parseHandled (hz : Nat) (ctx : Ctx) (fd : Bool) (i : Nat) (id : UrlId) :
    Handled ctx fd i id (!(ctx.urls id).parseNeeded && !(ctx.urls id).downNeeded) (writeParse hz ctx fd i id) := by
  unfold writeParse
  split
  · rename_i due
    have need : (ctx.urls id).parseNeeded = true := by simp [UrlEntry.parseNeeded,due]
    rw [need]
    split
    · exact .call rfl (stillRefl ctx)
    · exact sendHandled hz ctx fd i id .parse
  · rename_i done
    have none_ : (ctx.urls id).parseNeeded = false := by
      unfold UrlEntry.parseNeeded
      rcases not_and_or.mp done with other | set
      · simp [Bool.eq_false_of_not_eq_true other]
      · simp [Bool.eq_true_of_not_eq_false set]
    rw [none_]
    exact downHandled hz ctx fd i id

def UrlEntry.needs (e : UrlEntry) : Bool × Bool := (e.parseNeeded,e.downNeeded)

theorem bodyWriteFlags (ctx : Ctx) (id : UrlId) (outcome : WriteOutcome) :
    ((bodyWrite ctx id outcome).urls id).needs = (ctx.urls id).needs ∧
    (((ctx.urls id).urlFlags.resWrite = false) →
      ((bodyWrite ctx id outcome).urls id).urlFlags.resWrite = (outcome == .saved)) := by
  cases outcome with
  | saved => simp [bodyWrite,urlBufsFree,Ctx.setFlags,UrlEntry.setFlags,UrlEntry.needs,UrlEntry.parseNeeded,
      UrlEntry.downNeeded,UrlEntry.cacheFlg]
  | failed | broken at_ =>
    refine ⟨?_,fun off => ?_⟩
    · simp [bodyWrite,urlBufsFree,Ctx.setFlags,UrlEntry.setFlags,UrlEntry.needs,UrlEntry.parseNeeded,
        UrlEntry.downNeeded,UrlEntry.cacheFlg]
    · refine Eq.trans ?_ (rfl : false = _)
      simpa [bodyWrite,urlBufsFree,Ctx.setFlags,UrlEntry.setFlags] using off

theorem urlWriteFlags (ctx : Ctx) (id : UrlId) (outcome : WriteOutcome)
    (off : (ctx.urls id).urlFlags.resWrite = false) :
    ((ngxHttpUrlWrite ctx id outcome).urls id).needs = (ctx.urls id).needs ∧
    ((ngxHttpUrlWrite ctx id outcome).urls id).urlFlags.resWrite = (ctx.urls id).written outcome := by
  unfold ngxHttpUrlWrite UrlEntry.written
  dsimp only
  split
  · rename_i cache
    rw [cache]
    exact ⟨rfl,off⟩
  · rename_i cache
    split
    · rename_i alloc
      rw [alloc,Bool.and_false]
      refine ⟨?_,?_⟩ <;> rw [Ctx.setFlags,modifySelf]
      · rfl
      · exact off
    · rename_i alloc
      rw [if_neg (by rw [off]; exact Bool.false_ne_true),Bool.eq_true_of_not_eq_false cache,
        Bool.eq_true_of_not_eq_false alloc]
      split
      · rename_i differ
        rw [beq_eq_false_iff_ne.mpr differ]
        refine ⟨?_,?_⟩ <;> rw [modifySelf,urlBufsFree,modifySelf]
        · rfl
        · exact off
      · rename_i same
        have whole := not_not.mp same
        rw [beq_iff_eq.mpr whole,Bool.and_true,Bool.true_and]
        exact ⟨(bodyWriteFlags ctx id outcome).1,(bodyWriteFlags ctx id outcome).2 off⟩

theorem bodyHandled (hz : Nat) (ctx : Ctx) (fd : Bool) (i : Nat) (id : UrlId) (outcome : WriteOutcome) :
    Handled ctx fd i id ((!(ctx.urls id).cacheFlg.spWrite || (ctx.urls id).urlFlags.resWrite ||
      (ctx.urls id).written outcome) && (!(ctx.urls id).parseNeeded && !(ctx.urls id).downNeeded))
      (writeBody hz ctx fd i id outcome) := by
  unfold writeBody
  split
  · rename_i due
    obtain ⟨needs,saved⟩ := urlWriteFlags ctx id outcome due.2
    have still := urlWriteStill ctx id outcome
    have parse : ((ngxHttpUrlWrite ctx id outcome).urls id).parseNeeded = (ctx.urls id).parseNeeded := congrArg Prod.fst needs
    have down : ((ngxHttpUrlWrite ctx id outcome).urls id).downNeeded = (ctx.urls id).downNeeded := congrArg Prod.snd needs
    rw [due.1,due.2,← saved]
    dsimp only
    split
    · rename_i wrote
      rw [wrote,← parse,← down]
      exact handledAfter still (parseHandled hz _ fd i id)
    · rename_i kept
      rw [Bool.eq_false_of_not_eq_true kept]
      exact handledAfter still (requeueHandled _ fd i id 3)
  · rename_i other
    have through : (!(ctx.urls id).cacheFlg.spWrite || (ctx.urls id).urlFlags.resWrite) = true := by
      rcases not_and_or.mp other with none_ | wrote
      · simp [Bool.eq_false_of_not_eq_true none_]
      · simp [Bool.eq_true_of_not_eq_false wrote]
    rw [through]
    exact parseHandled hz ctx fd i id

theorem tookHandled (hz : Nat) (ctx : Ctx) (fd : Bool) (i : Nat) (id : UrlId) (outcome : WriteOutcome) :
    Handled ctx fd i id ((ctx.urls id).ready outcome) (writeTook hz ctx fd i id outcome) := by
  have init (e : UrlEntry) : (urlLocalFileInit e).core = e.core ∧
      (urlLocalFileInit e).urlFlags.resLfok = (e.urlFlags.resLfok || e.urlFlags.resLfb) ∧
      (urlLocalFileInit e).needs = e.needs ∧ (urlLocalFileInit e).written outcome = e.written outcome ∧
      (urlLocalFileInit e).cacheFlg = e.cacheFlg ∧ (urlLocalFileInit e).urlFlags.resWrite = e.urlFlags.resWrite := by
    unfold urlLocalFileInit
    split
    · rename_i lfb
      rw [lfb.1,Bool.or_true]
      exact ⟨rfl,rfl,rfl,rfl,rfl,rfl⟩
    · rename_i other
      refine ⟨rfl,?_,rfl,rfl,rfl,rfl⟩
      rcases not_and_or.mp other with off | set
      · rw [Bool.eq_false_of_not_eq_true off,Bool.or_false]
      · rw [Bool.eq_true_of_not_eq_false set,Bool.true_or]
  obtain ⟨core,lfok,needs,written,flg,wrote⟩ := init (ctx.urls id)
  have parse : (urlLocalFileInit (ctx.urls id)).parseNeeded = (ctx.urls id).parseNeeded := congrArg Prod.fst needs
  have down : (urlLocalFileInit (ctx.urls id)).downNeeded = (ctx.urls id).downNeeded := congrArg Prod.snd needs
  refine handledAfter (stillModify core) ?_
  unfold writeTook UrlEntry.ready
  dsimp only
  rw [modifySelf,lfok]
  split
  · rename_i begun
    have body := bodyHandled hz (ctx.modify id urlLocalFileInit) fd i id outcome
    rw [modifySelf,flg,wrote,written,parse,down] at body
    rw [begun,Bool.true_and]
    exact body
  · rename_i none_
    rw [Bool.eq_false_of_not_eq_true none_]
    exact requeueHandled _ fd i id 3

theorem answerHandled (hz : Nat) (ctx : Ctx) (fd : Bool) (i : Nat) (id : UrlId) (action : Sp2cAction) (ok : Bool) :
    Handled ctx fd i id ((ctx.urls id).answered action ok) (writeAnswer hz ctx fd i id action ok) := by
  unfold writeAnswer UrlEntry.answered
  cases ok with
  | false => exact requeueHandled ctx fd i id 11
  | true =>
    have marked : Still ctx (ctx.setFlags id ({ · with ngxParseOk := true })) := stillFlags rfl
    refine handledAfter marked ?_
    cases action with
    | parse =>
      have down := downHandled hz (ctx.setFlags id ({ · with ngxParseOk := true })) fd i id
      rw [Ctx.setFlags,modifySelf] at down
      exact down
    | down => exact .finish rfl (stillRefl _)
    | getnext => exact .finish rfl (stillRefl _)

end MipsElfExec.Snooping
