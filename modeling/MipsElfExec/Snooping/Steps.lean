import MipsElfExec.Snooping.Lists
import MipsElfExec.Snooping.Writer

/-! What one critical section and one step of the write task do to the lists: when the
table invariant survives them, and that the links among entries survive in any case. -/
namespace MipsElfExec.Snooping
open CString MipsElfExec.Ring

variable {ctx ctx' : Ctx} {id : UrlId} {res : ResList → List UrlId} {hash slots : Nat → List UrlId}

structure Core where
  place : Place
  urlAction : Option C2spAction
  tenancy : Nat
  serverName : Bytes
  resUrl : Bytes
  pcacheRule : Option Rule
  deriving DecidableEq, Repr

def UrlEntry.core (e : UrlEntry) : Core :=
  ⟨e.place,e.urlAction,e.tenancy,e.serverName,e.resUrl,e.pcacheRule⟩

structure Still (ctx ctx' : Ctx) : Prop where
  resLinks : ctx'.resLinks = ctx.resLinks
  hashLinks : ctx'.hashLinks = ctx.hashLinks
  cacheLinks : ctx'.cacheLinks = ctx.cacheLinks
  urlFree : ctx'.urlFree = ctx.urlFree
  cacheNum : ctx'.cacheNum = ctx.cacheNum
  core : ∀ j,(ctx'.urls j).core = (ctx.urls j).core

theorem stillRefl (ctx : Ctx) : Still ctx ctx := ⟨rfl,rfl,rfl,rfl,rfl,fun _ => rfl⟩

theorem stillTrans {ctx'' : Ctx} (first : Still ctx ctx') (second : Still ctx' ctx'') : Still ctx ctx'' :=
  ⟨second.resLinks.trans first.resLinks,second.hashLinks.trans first.hashLinks,
    second.cacheLinks.trans first.cacheLinks,second.urlFree.trans first.urlFree,
    second.cacheNum.trans first.cacheNum,fun j => (second.core j).trans (first.core j)⟩

theorem stillAlike (S : Still ctx ctx') : Alike ctx ctx' :=
  ⟨S.resLinks,S.hashLinks,S.cacheLinks,S.urlFree,S.cacheNum,funext fun j => congrArg Core.place (S.core j)⟩

theorem stillModify {f : UrlEntry → UrlEntry} (same : (f (ctx.urls id)).core = (ctx.urls id).core) :
    Still ctx (ctx.modify id f) := by
  refine ⟨rfl,rfl,rfl,rfl,rfl,fun j => ?_⟩
  rw [modifyUrls]
  split
  · rename_i ours
    rw [ours,same]
  · rfl

theorem stillFlags {f : UrlFlags → UrlFlags} (same : ((ctx.urls id).setFlags f).core = (ctx.urls id).core) :
    Still ctx (ctx.setFlags id f) :=
  stillModify same

theorem stillBufs {f : UrlEntry → UrlEntry} {bufs : BufPool} (same : (f (ctx.urls id)).core = (ctx.urls id).core) :
    Still ctx ({ ctx with bufs := bufs }.modify id f) :=
  have pool : Still ctx { ctx with bufs := bufs } := ⟨rfl,rfl,rfl,rfl,rfl,fun _ => rfl⟩
  stillTrans pool (stillModify same)

section write

inductive Worked (ctx : Ctx) (id : UrlId) (ctx' : Ctx) : Prop where
  | kept (still : Still ctx ctx')
  | queued (mid : Ctx) (tick : Nat) (before : Still ctx mid) (after : Still (httpUrlCacheAdd mid id tick) ctx')

def Writer.hand : Writer → Option UrlId
  | .took _ _ id | .calling _ _ id _ | .logging _ id | .removing _ id => some id
  | _ => none

def Writer.working : Writer → Option UrlId
  | .took _ _ id | .calling _ _ id _ => some id
  | _ => none

def Awaits (e : UrlEntry) : Sp2cAction → Prop
  | .parse => e.cacheFlg.actionUpparse = true
  | .down => e.cacheFlg.actionCacheUpstream = true
  | .getnext => False

structure WorkedOut (ctx : Ctx) (id : UrlId) (w : Written) : Prop where
  worked : Worked ctx id w.1
  hand : w.2.1.hand = none ∨ w.2.1.hand = some id
  out : w.2.2 = none ∨ ∃ action,w.2.2 = some (.send ⟨id,action,(ctx.urls id).urlBuf⟩) ∧ Awaits (ctx.urls id) action

theorem coreUrl {a b : UrlEntry} (same : a.core = b.core) : a.urlBuf = b.urlBuf ∧ a.cacheFlg = b.cacheFlg := by
  unfold UrlEntry.urlBuf UrlEntry.cacheFlg
  injection same with _ _ _ server res rule
  rw [server,res,rule]
  exact ⟨rfl,rfl⟩

theorem workedAfter {w : Written} (before : Still ctx ctx') (rest : WorkedOut ctx' id w) : WorkedOut ctx id w := by
  obtain ⟨worked,hand,out⟩ := rest
  obtain ⟨url,flg⟩ := coreUrl (before.core id)
  refine ⟨?_,hand,?_⟩
  · cases worked with
    | kept still => exact .kept (stillTrans before still)
    | queued mid tick first after => exact .queued mid tick (stillTrans before first) after
  · rw [url] at out
    refine out.imp_right fun ⟨action,sent,awaits⟩ => ⟨action,sent,?_⟩
    unfold Awaits at awaits ⊢
    rwa [flg] at awaits

theorem requeueWorked (ctx : Ctx) (fd : Bool) (i : Nat) (id : UrlId) (tick : Nat) :
    WorkedOut ctx id (requeue ctx fd i id tick) :=
  ⟨.queued ctx tick (stillRefl _) (stillRefl _),Or.inl rfl,Or.inl rfl⟩

theorem sendWorked (hz : Nat) (ctx : Ctx) (fd : Bool) (i : Nat) (id : UrlId) (action : Sp2cAction)
    (awaits : Awaits (ctx.urls id) action) : WorkedOut ctx id (sp2cSend hz ctx fd i id action) := by
  refine ⟨.queued _ 11 ?_ (stillFlags rfl),Or.inl rfl,?_⟩
  · split
    · exact stillModify rfl
    · exact stillRefl ctx
  · unfold sp2cSend
    dsimp only
    split
    · exact Or.inr ⟨action,rfl,awaits⟩
    · exact Or.inl rfl

theorem finishWorked (ctx : Ctx) (fd : Bool) (i : Nat) (id : UrlId) : WorkedOut ctx id (writeFinish ctx fd i id) := by
  unfold writeFinish
  refine ⟨.kept ?_,?_,Or.inl rfl⟩
  · dsimp only
    split
    · exact stillFlags rfl
    · exact stillRefl ctx
  · cases fd
    · exact Or.inl rfl
    · exact Or.inr rfl

theorem downWorked (hz : Nat) (ctx : Ctx) (fd : Bool) (i : Nat) (id : UrlId) :
    WorkedOut ctx id (writeDown hz ctx fd i id) := by
  unfold writeDown
  split
  · rename_i due
    split
    · exact ⟨.kept (stillRefl ctx),Or.inr rfl,Or.inl rfl⟩
    · exact sendWorked hz ctx fd i id .down due.1
  · exact finishWorked ctx fd i id

theorem parseWorked (hz : Nat) (ctx : Ctx) (fd : Bool) (i : Nat) (id : UrlId) :
    WorkedOut ctx id (writeParse hz ctx fd i id) := by
  unfold writeParse
  split
  · rename_i due
    split
    · exact ⟨.kept (stillRefl ctx),Or.inr rfl,Or.inl rfl⟩
    · exact sendWorked hz ctx fd i id .parse due.1
  · exact downWorked hz ctx fd i id

theorem urlWriteStill (ctx : Ctx) (id : UrlId) (outcome : WriteOutcome) : Still ctx (ngxHttpUrlWrite ctx id outcome) := by
  have freed (lost : List Nat → List Nat) : Still ctx (urlBufsFree ctx id lost) := stillBufs rfl
  unfold ngxHttpUrlWrite
  dsimp only
  split
  · exact stillRefl ctx
  · split
    · exact stillFlags rfl
    · split
      · exact stillRefl ctx
      · split
        · exact stillTrans (freed _) (stillModify rfl)
        · cases outcome <;> exact stillTrans (freed _) (stillFlags rfl)

theorem bodyWorked (hz : Nat) (ctx : Ctx) (fd : Bool) (i : Nat) (id : UrlId) (outcome : WriteOutcome) :
    WorkedOut ctx id (writeBody hz ctx fd i id outcome) := by
  unfold writeBody
  split
  · refine workedAfter (urlWriteStill ctx id outcome) ?_
    dsimp only
    split
    · exact parseWorked hz _ fd i id
    · exact requeueWorked _ fd i id 3
  · exact parseWorked hz ctx fd i id

theorem tookWorked (hz : Nat) (ctx : Ctx) (fd : Bool) (i : Nat) (id : UrlId) (outcome : WriteOutcome) :
    WorkedOut ctx id (writeTook hz ctx fd i id outcome) := by
  have init : (urlLocalFileInit (ctx.urls id)).core = (ctx.urls id).core := by
    unfold urlLocalFileInit
    split <;> rfl
  refine workedAfter (stillModify init) ?_
  unfold writeTook
  dsimp only
  split
  · exact bodyWorked hz _ fd i id outcome
  · exact requeueWorked _ fd i id 3

theorem answerWorked (hz : Nat) (ctx : Ctx) (fd : Bool) (i : Nat) (id : UrlId) (action : Sp2cAction) (ok : Bool) :
    WorkedOut ctx id (writeAnswer hz ctx fd i id action ok) := by
  unfold writeAnswer
  split
  · have marked : Still ctx (ctx.setFlags id ({ · with ngxParseOk := true })) := stillFlags rfl
    refine workedAfter marked ?_
    cases action
    · exact downWorked hz _ fd i id
    · exact finishWorked _ fd i id
    · exact finishWorked _ fd i id
  · exact requeueWorked ctx fd i id 11

theorem workedListed (T : Listed ctx res hash) (W : Worked ctx id ctx') : Listed ctx' res hash := by
  cases W with
  | kept still => exact listedAlike (stillAlike still) T
  | queued mid tick before after =>
    exact listedAlike (stillAlike after) (listedCacheAdd (listedAlike (stillAlike before) T) tick)

theorem workedTidy (T : Tidy ctx res hash slots) (owned : (ctx.place id).res = true) (W : Worked ctx id ctx') :
    TableInvariant ctx' ∧ (ctx'.place id).res = true := by
  cases W with
  | kept still =>
    have alike := stillAlike still
    exact ⟨(invariantAlike alike).mpr ⟨res,hash,slots,T⟩,by rw [alike.place]; exact owned⟩
  | queued mid tick before after =>
    have first := stillAlike before
    have last := stillAlike after
    have here : (mid.place id).res = true := by rw [first.place]; exact owned
    refine ⟨(invariantAlike last).mpr (tidyCacheAdd (tidyAlike first T) tick (Or.inr here)),?_⟩
    rw [last.place,placeCacheAdd,if_pos rfl]
    exact here

inductive WriterStep (ctx : Ctx) : Writer → WriterEvent → Ctx → Writer → Option WriterOut → Prop where
  | quiet {w e w' tick} (free : w.hand = none) (hand : w'.hand = none) : WriterStep ctx w e { ctx with writeTick := tick } w' none
  | pop {fd i e id ctx'} (got : httpUrlCacheGet ctx = some (id,ctx')) :
    WriterStep ctx (.pass fd i) e ctx' (.took fd (i + 1) id) none
  | work {w e id ctx' w' out} (hand : w.working = some id) (worked : WorkedOut ctx id (ctx',w',out)) :
    WriterStep ctx w e ctx' w' out
  | log {i id} : WriterStep ctx (.logging i id) .log ctx (.removing i id)
      (some (.log ((ctx.urls id).urlAction == some .add) (ctx.urls id).urlBuf))
  | remove {i id} (due : (ctx.urls id).urlAction = some .delete) :
    WriterStep ctx (.removing i id) .remove (urlRelease ctx id) (.pass true i) none
  | leave {i id} (other : (ctx.urls id).urlAction ≠ some .delete) :
    WriterStep ctx (.removing i id) .remove ctx (.pass true i) none

theorem writerSteps {hz : Nat} {w w' : Writer} {e : WriterEvent} {out : Option WriterOut}
    (h : ngxHttpSnoopingWriteProcess hz ctx w e = some (ctx',w',out)) : WriterStep ctx w e ctx' w' out := by
  unfold ngxHttpSnoopingWriteProcess at h
  split at h <;> try contradiction
  · cases Option.some.inj h
    exact .quiet rfl rfl
  · split at h
    · split at h
      · rename_i id next got
        cases Option.some.inj h
        exact .pop got
      · cases Option.some.inj h
        exact .quiet rfl rfl
    · cases Option.some.inj h
      exact .quiet rfl rfl
  · rename_i fd i id outcome
    have worked := tookWorked hz ctx fd i id outcome
    rw [Option.some.inj h] at worked
    exact .work rfl worked
  · rename_i fd i id action ok
    have worked := answerWorked hz ctx fd i id action ok
    rw [Option.some.inj h] at worked
    exact .work rfl worked
  · cases Option.some.inj h
    exact .log
  · split at h
    · rename_i due
      cases Option.some.inj h
      exact .remove due
    · rename_i other
      cases Option.some.inj h
      exact .leave other

end write

end MipsElfExec.Snooping
