import MipsElfExec.Snooping.Interleave
import MipsElfExec.Snooping.Log
import MipsElfExec.Snooping.Work

/-! One pass of the write task, with the log it appends to and the requests it issues. -/
namespace MipsElfExec.Snooping
open CString Run Section

variable {hz : Nat} {ctx ctx' : Ctx} {id j : UrlId}

def ngxHttpBufWrite : List (Option Nat) → Bytes → Option Bytes
  | [],_ => none
  | none :: _,_ => some []
  | some n :: results,text =>
    if n = text.length then some text
    else if n < text.length then (ngxHttpBufWrite results (text.drop n)).map (text.take n ++ ·)
    else none

def bufWriteFails : List (Option Nat) → Nat → Bool
  | [],_ => false
  | none :: _,size => size != 0
  | some n :: results,size => n < size && bufWriteFails results (size - n)

theorem bufWriteAll {results : List (Option Nat)} {text out : Bytes} (wrote : ngxHttpBufWrite results text = some out) :
    out <+: text ∧ (out = text ↔ bufWriteFails results text.length = false) := by
  induction results generalizing text out with
  | nil => cases wrote
  | cons result results ih =>
    cases result with
    | none =>
      cases Option.some.inj wrote
      refine ⟨List.nil_prefix,?_⟩
      rw [bufWriteFails,bne_eq_false_iff_eq,List.length_eq_zero_iff]
      exact eq_comm
    | some n =>
      unfold ngxHttpBufWrite at wrote
      unfold bufWriteFails
      split at wrote
      · rename_i all
        cases Option.some.inj wrote
        exact ⟨List.prefix_rfl,iff_of_true rfl (by rw [all]; simp)⟩
      · split at wrote <;> try contradiction
        rename_i few
        obtain ⟨rest,more,rfl⟩ := Option.map_eq_some_iff.mp wrote
        obtain ⟨starts,exact_⟩ := ih more
        rw [decide_eq_true few,Bool.true_and,← List.length_drop,← exact_]
        have whole := List.take_append_drop n text
        refine ⟨?_,fun same => ?_,fun same => by rw [same,whole]⟩
        · obtain ⟨tail,join⟩ := starts
          exact ⟨tail,by rw [List.append_assoc,join,whole]⟩
        · exact List.append_cancel_left (same.trans whole.symm)

structure LogWrites where
  sign : List (Option Nat)
  url : List (Option Nat)
  line : List (Option Nat)

def LogWrites.append (w : LogWrites) (added : Bool) (url : Bytes) : Option Bytes :=
  (ngxHttpBufWrite w.sign (logSign added)).bind fun sign => (ngxHttpBufWrite w.url url).bind fun url =>
    (ngxHttpBufWrite w.line crlf).map fun line => sign ++ url ++ line

def LogWrites.fails (w : LogWrites) (url : Bytes) : Bool :=
  bufWriteFails w.sign 5 || bufWriteFails w.url url.length || bufWriteFails w.line 2

theorem prefixesAll {a b c a' b' c' : Bytes} (first : a <+: a') (second : b <+: b') (third : c <+: c') :
    a ++ b ++ c = a' ++ b' ++ c' ↔ a = a' ∧ b = b' ∧ c = c' := by
  refine ⟨fun same => ?_,fun ⟨one,two,three⟩ => by rw [one,two,three]⟩
  have size := congrArg List.length same
  rw [List.length_append,List.length_append,List.length_append,List.length_append] at size
  have one := first.length_le
  have two := second.length_le
  have three := third.length_le
  exact ⟨first.eq_of_length (by omega),second.eq_of_length (by omega),third.eq_of_length (by omega)⟩

theorem appendAll {w : LogWrites} {added : Bool} {url text : Bytes} (wrote : w.append added url = some text) :
    text = logText added url ↔ w.fails url = false := by
  obtain ⟨sign,signed,rest⟩ := Option.bind_eq_some_iff.mp wrote
  obtain ⟨name,named,last⟩ := Option.bind_eq_some_iff.mp rest
  obtain ⟨line,lined,rfl⟩ := Option.map_eq_some_iff.mp last
  obtain ⟨signStarts,signAll⟩ := bufWriteAll signed
  obtain ⟨nameStarts,nameAll⟩ := bufWriteAll named
  obtain ⟨lineStarts,lineAll⟩ := bufWriteAll lined
  have five : (logSign added).length = 5 := by cases added <;> rfl
  have two : crlf.length = 2 := rfl
  rw [five] at signAll
  rw [two] at lineAll
  unfold logText LogWrites.fails
  rw [Bool.or_eq_false_iff,Bool.or_eq_false_iff,← signAll,← nameAll,← lineAll,and_assoc]
  exact prefixesAll signStarts nameStarts lineStarts

-- The pass, with all it has popped, asked for, and logged in full.
structure Pass where
  ctx : Ctx
  writer : Writer
  file : Bytes
  popped : List UrlId
  requests : List UrlId
  logged : List UrlId

abbrev PassEvent := WriterEvent × LogWrites

def Writer.popping : Writer → List UrlId
  | .took _ _ id => [id]
  | _ => []

def Writer.asking : Writer → List UrlId
  | .calling _ _ id _ => [id]
  | _ => []

def WriterOut.sent : WriterOut → List UrlId
  | .send req => [req.sessionId]
  | .log _ _ => []

def Pass.move (p : Pass) (ctx : Ctx) (writer : Writer) (sent : List UrlId) : Pass :=
  { p with
    ctx := ctx
    writer := writer
    popped := p.popped ++ writer.popping
    requests := p.requests ++ (writer.asking ++ sent) }

def Pass.note (p : Pass) (id : UrlId) (added : Bool) (url text : Bytes) : Pass :=
  { p with
    file := p.file ++ text
    logged := if text = logText added url then id :: p.logged else p.logged }

def Pass.step (hz : Nat) (p : Pass) (e : PassEvent) : Option Pass :=
  if p.writer = .idle then none
  else (ngxHttpSnoopingWriteProcess hz p.ctx p.writer e.1).bind fun (ctx,writer,out) =>
    match out,writer with
    | some (.log added url),.removing _ id => (e.2.append added url).map ((p.move ctx writer []).note id added url)
    | some out,_ => some (p.move ctx writer out.sent)
    | none,_ => some (p.move ctx writer [])

def Pass.start (ctx : Ctx) (fd : Bool) : Pass := ⟨ctx,.pass fd 0,[],[],[],[]⟩

def Pass.finishes (p : Pass) (e : WriterEvent) : Bool :=
  match p.writer,e with
  | .took _ _ id,.work outcome => (p.ctx.urls id).ready outcome
  | .calling _ _ id action,.answer ok => (p.ctx.urls id).answered action ok
  | _,_ => false

def Writer.fd : Writer → Bool
  | .pass fd _ | .took fd _ _ | .calling fd _ _ _ => fd
  | _ => true

inductive Works : Writer → WriterEvent → UrlId → Prop where
  | took {fd i id outcome} : Works (.took fd i id) (.work outcome) id
  | answered {fd i id action ok} : Works (.calling fd i id action) (.answer ok) id

inductive PassStep (p : Pass) (e : PassEvent) : Pass → Prop where
  | quiet {fd i tick} (state : p.writer = .pass fd i) : PassStep p e (p.move { p.ctx with writeTick := tick } .idle [])
  | pop {fd i id last} (state : p.writer = .pass fd i) (got : httpUrlCacheGet p.ctx = some (id,last)) :
    PassStep p e (p.move last (.took fd (i + 1) id) [])
  | work {fd i id last writer out sent} (works : Works p.writer e.1 id) (fds : p.writer.fd = fd)
    (handled : Handled p.ctx fd i id (p.finishes e.1) (last,writer,out)) (silent : out = none → sent = [])
    (mine : ∀ j ∈ sent,j = id) : PassStep p e (p.move last writer sent)
  | log {i id text} (state : p.writer = .logging i id)
    (wrote : e.2.append ((p.ctx.urls id).urlAction == some .add) (p.ctx.urls id).urlBuf = some text) :
    PassStep p e ((p.move p.ctx (.removing i id) []).note id ((p.ctx.urls id).urlAction == some .add)
      (p.ctx.urls id).urlBuf text)
  | remove {i id} (state : p.writer = .removing i id) (due : (p.ctx.urls id).urlAction = some .delete) :
    PassStep p e (p.move (urlRelease p.ctx id) (.pass true i) [])
  | leave {i id} (state : p.writer = .removing i id) (other : (p.ctx.urls id).urlAction ≠ some .delete) :
    PassStep p e (p.move p.ctx (.pass true i) [])

theorem worksHand {w : Writer} {e : WriterEvent} (works : Works w e id) : w.working = some id := by
  cases works <;> rfl

theorem workSteps {p q : Pass} {e : PassEvent} {id : UrlId} {last : Ctx} {writer : Writer} {out : Option WriterOut}
    (moved : (match out,writer with
      | some (.log added url),.removing _ id => (e.2.append added url).map ((p.move last writer []).note id added url)
      | some out,_ => some (p.move last writer out.sent)
      | none,_ => some (p.move last writer [])) = some q)
    (worked : WorkedOut p.ctx id (last,writer,out)) : ∃ sent,q = p.move last writer sent ∧
      (out = none → sent = []) ∧ ∀ j ∈ sent,j = id := by
  rcases worked.out with none_ | ⟨action,send,_⟩
  · cases none_
    exact ⟨[],(Option.some.inj moved).symm,fun _ => rfl,nofun⟩
  · cases send
    exact ⟨[id],(Option.some.inj moved).symm,nofun,fun j mem => List.mem_singleton.mp mem⟩

theorem passSteps {p q : Pass} {e : PassEvent} (next : p.step hz e = some q) : PassStep p e q := by
  unfold Pass.step at next
  split at next <;> try contradiction
  rename_i open_
  obtain ⟨⟨last,writer,out⟩,wrote,moved⟩ := Option.bind_eq_some_iff.mp next
  dsimp only at moved
  unfold ngxHttpSnoopingWriteProcess at wrote
  split at wrote <;> try contradiction
  · rename_i fd i state event
    split at wrote
    · split at wrote
      · rename_i id after got
        cases Option.some.inj wrote
        cases Option.some.inj moved
        exact .pop state got
      · cases Option.some.inj wrote
        cases Option.some.inj moved
        exact .quiet state
    · cases Option.some.inj wrote
      cases Option.some.inj moved
      exact .quiet state
  · rename_i fd i id outcome state event
    have handled := tookHandled hz p.ctx fd i id outcome
    have worked := tookWorked hz p.ctx fd i id outcome
    rw [Option.some.inj wrote] at handled worked
    obtain ⟨sent,rfl,silent,mine⟩ := workSteps moved worked
    have due : p.finishes e.1 = (p.ctx.urls id).ready outcome := by
      unfold Pass.finishes
      rw [state,event]
    exact .work (by rw [state,event]; exact .took) (by rw [state]; rfl) (due ▸ handled) silent mine
  · rename_i fd i id action ok state event
    have handled := answerHandled hz p.ctx fd i id action ok
    have worked := answerWorked hz p.ctx fd i id action ok
    rw [Option.some.inj wrote] at handled worked
    obtain ⟨sent,rfl,silent,mine⟩ := workSteps moved worked
    have due : p.finishes e.1 = (p.ctx.urls id).answered action ok := by
      unfold Pass.finishes
      rw [state,event]
    exact .work (by rw [state,event]; exact .answered) (by rw [state]; rfl) (due ▸ handled) silent mine
  · rename_i i id state event
    cases Option.some.inj wrote
    obtain ⟨text,wrote',rfl⟩ := Option.map_eq_some_iff.mp moved
    exact .log state wrote'
  · rename_i i id state event
    split at wrote
    · rename_i due
      cases Option.some.inj wrote
      cases Option.some.inj moved
      exact .remove state due
    · rename_i other
      cases Option.some.inj wrote
      cases Option.some.inj moved
      exact .leave state other

theorem handledOut {fd ready : Bool} {i : Nat} {last : Ctx} {writer : Writer} {out : Option WriterOut}
    (handled : Handled ctx fd i id ready (last,writer,out)) :
    (ready = true ∧ Still ctx last ∧ out = none ∧ writer = if fd then .logging i id else .pass fd i) ∨
    ready = false ∧ ((∃ action,Still ctx last ∧ writer = .calling fd i id action) ∨
      writer = .pass fd i ∧ ∃ mid tick,Still ctx mid ∧ Still (httpUrlCacheAdd mid id tick) last) := by
  generalize same : (last,writer,out) = w at handled
  cases handled with
  | @finish after due still =>
    refine Or.inl ⟨due,?_,?_,?_⟩
    · have wrote := congrArg Prod.fst same
      dsimp only at wrote
      rw [wrote]
      unfold writeFinish
      dsimp only
      split
      · exact stillTrans still (stillFlags rfl)
      · exact still
    · exact congrArg (fun w => w.2.2) same
    · exact congrArg (fun w => w.2.1) same
  | call early still =>
    cases same
    exact Or.inr ⟨early,Or.inl ⟨_,still,rfl⟩⟩
  | queue early before after =>
    cases same
    exact Or.inr ⟨early,Or.inr ⟨rfl,_,_,before,after⟩⟩

theorem cacheAddOther (ctx : Ctx) (tick : Nat) (other : j ≠ id) : (httpUrlCacheAdd ctx id tick).urls j = ctx.urls j := by
  unfold httpUrlCacheAdd
  split
  · rfl
  · exact modifyOther (ctx.setCache _ _) _ other

theorem cacheAddAction (ctx : Ctx) (id j : UrlId) (tick : Nat) :
    ((httpUrlCacheAdd ctx id tick).urls j).urlAction = (ctx.urls j).urlAction := by
  rcases Decidable.em (j = id) with rfl | other
  · unfold httpUrlCacheAdd
    split
    · rfl
    · rw [Ctx.setFlags,modifySelf]
      rfl
  · rw [cacheAddOther ctx tick other]

theorem cacheGetOther (got : httpUrlCacheGet ctx = some (id,ctx')) :
    (∀ j,j ≠ id → ctx'.urls j = ctx.urls j) ∧ (ctx'.urls id).urlAction = (ctx.urls id).urlAction := by
  unfold httpUrlCacheGet at got
  split at got <;> try contradiction
  cases Option.some.inj got
  refine ⟨fun j other => modifyOther (ctx.setCache _ _) _ other,?_⟩
  rw [Ctx.setFlags,modifySelf]
  rfl

theorem releaseOther (ctx : Ctx) (other : j ≠ id) : (urlRelease ctx id).urls j = ctx.urls j := by
  have unhashed : (ngxHttpSnoopingUrlHashDel ctx id).urls j = ctx.urls j := by
    rw [ngxHttpSnoopingUrlHashDel,Ctx.setFlags,modifyOther _ _ other]
    rfl
  unfold urlRelease
  refine (modifyOther (Ctx.setRes _ _ _) _ other).trans ?_
  split
  · exact unhashed
  · rfl

theorem releaseAction (ctx : Ctx) (id j : UrlId) : ((urlRelease ctx id).urls j).urlAction = (ctx.urls j).urlAction := by
  rcases Decidable.em (j = id) with rfl | other
  · have unhashed : ((ngxHttpSnoopingUrlHashDel ctx j).urls j).urlAction = (ctx.urls j).urlAction := by
      rw [ngxHttpSnoopingUrlHashDel,Ctx.setFlags,modifySelf]
      rfl
    unfold urlRelease
    rw [Ctx.setFlags,modifySelf]
    split
    · exact unhashed
    · rfl
  · rw [releaseOther ctx other]

structure Beside (ctx : Ctx) (id : UrlId) (ctx' : Ctx) : Prop where
  tidy : TableInvariant ctx'
  others : ∀ j,j ≠ id → (ctx'.urls j).core = (ctx.urls j).core
  res : (ctx'.place id).res = (ctx.place id).res
  action : ∀ j,(ctx'.urls j).urlAction = (ctx.urls j).urlAction

theorem besideStill (inv : TableInvariant ctx) (still : Still ctx ctx') (id : UrlId) : Beside ctx id ctx' :=
  ⟨(invariantAlike (stillAlike still)).mpr inv,fun j _ => still.core j,
    by rw [(stillAlike still).place],fun j => congrArg Core.urlAction (still.core j)⟩

theorem besideQueue {mid : Ctx} {tick : Nat} (inv : TableInvariant ctx) (owned : (ctx.place id).res = true)
    (before : Still ctx mid) (after : Still (httpUrlCacheAdd mid id tick) ctx') :
    Beside ctx id ctx' ∧ (ctx'.place id).cacheList = true := by
  obtain ⟨res,hash,slots,T⟩ := inv
  obtain ⟨tidy,res'⟩ := workedTidy T owned (.queued mid tick before after)
  refine ⟨⟨tidy,fun j other => ?_,res'.trans owned.symm,fun j => ?_⟩,?_⟩
  · rw [after.core j,cacheAddOther mid tick other,before.core j]
  · have first := congrArg Core.urlAction (before.core j)
    have last := congrArg Core.urlAction (after.core j)
    exact last.trans ((cacheAddAction mid id j tick).trans first)
  · rw [(stillAlike after).place,placeCacheAdd,if_pos rfl]

structure Passing (p : Pass) : Prop where
  tidy : TableInvariant p.ctx
  held : ∀ id,p.writer.hand = some id →
    (p.ctx.place id).res = true ∧ (p.ctx.place id).cacheList = false ∧ id ∈ p.popped
  logged : ∀ id ∈ p.logged,(p.ctx.place id).cacheList = false
  fresh : ∀ id,(p.writer.working = some id ∨ ∃ i,p.writer = .logging i id) → id ∉ p.logged
  asked : ∀ id ∈ p.requests,id ∈ p.popped
  calling : ∀ fd i id action,p.writer = .calling fd i id action → id ∈ p.requests

theorem workingHand {w : Writer} (hand : w.working = some id) : w.hand = some id := by
  cases w <;> first | exact hand | cases hand

inductive Stage (p : Pass) (e : PassEvent) (id : UrlId) (q : Pass) : Prop where
  | finish {i} (due : p.finishes e.1 = true) (beside : Beside p.ctx id q.ctx)
    (idle : (q.ctx.place id).cacheList = false) (requests : q.requests = p.requests)
    (writer : q.writer = if p.writer.fd then .logging i id else .pass false i)
  | call {fd i action} (early : p.finishes e.1 = false) (beside : Beside p.ctx id q.ctx)
    (idle : (q.ctx.place id).cacheList = false) (asked : id ∈ q.requests) (writer : q.writer = .calling fd i id action)
  | queue {fd i} (early : p.finishes e.1 = false) (beside : Beside p.ctx id q.ctx)
    (queued : (q.ctx.place id).cacheList = true) (writer : q.writer = .pass fd i)

theorem workStage {p : Pass} {e : PassEvent} {i : Nat} {last : Ctx} {writer : Writer} {out : Option WriterOut}
    {sent : List UrlId} (inv : Passing p) (hand : p.writer.working = some id)
    (handled : Handled p.ctx p.writer.fd i id (p.finishes e.1) (last,writer,out)) (silent : out = none → sent = []) :
    Stage p e id (p.move last writer sent) := by
  obtain ⟨owned,idle,_⟩ := inv.held id (workingHand hand)
  have same (still : Still p.ctx last) : (last.place id).cacheList = false := by rw [(stillAlike still).place]; exact idle
  rcases handledOut handled with ⟨due,still,none_,state⟩ | ⟨early,⟨action,still,state⟩ | ⟨state,mid,tick,before,after⟩⟩
  · refine .finish (i := i) due (besideStill inv.tidy still id) (same still) ?_ ?_
    · unfold Pass.move
      rw [silent none_,state]
      cases p.writer.fd <;> simp [Writer.asking]
    · rw [Pass.move,state]
      cases p.writer.fd <;> rfl
  · refine .call early (besideStill inv.tidy still id) (same still) ?_ state
    rw [Pass.move,state]
    simp [Writer.asking]
  · obtain ⟨beside,queued⟩ := besideQueue inv.tidy owned before after
    exact .queue early beside queued state

theorem sameCache {e e' : UrlEntry} (same : e'.core = e.core) : e'.place.cacheList = e.place.cacheList :=
  congrArg (fun c : Core => c.place.cacheList) same

theorem besideLogged {p : Pass} (inv : Passing p) (beside : Beside p.ctx id ctx') (off : id ∉ p.logged) :
    ∀ j ∈ p.logged,(ctx'.place j).cacheList = false := by
  intro j mem
  have other : j ≠ id := fun same => off (same ▸ mem)
  exact (sameCache (beside.others j other)).trans (inv.logged j mem)

theorem workRequests {p : Pass} {fd ready : Bool} {i : Nat} {last : Ctx} {writer : Writer} {out : Option WriterOut}
    {sent : List UrlId} (handled : Handled p.ctx fd i id ready (last,writer,out)) (mine : ∀ j ∈ sent,j = id) :
    ∀ j ∈ (p.move last writer sent).requests,j ∈ p.requests ∨ j = id := by
  intro j mem
  rcases List.mem_append.mp mem with old | new
  · exact Or.inl old
  · rcases List.mem_append.mp new with asking | sent
    · rcases handledOut handled with ⟨_,_,_,state⟩ | ⟨_,⟨_,_,state⟩ | ⟨state,_⟩⟩
      · rw [state] at asking
        cases fd <;> cases asking
      · rw [state] at asking
        exact Or.inr (List.mem_singleton.mp asking)
      · rw [state] at asking
        cases asking
    · exact Or.inr (mine j sent)

theorem passingStep {p q : Pass} {e : PassEvent} (inv : Passing p) (S : PassStep p e q) : Passing q := by
  cases S with
  | @quiet fd i tick state =>
    have alike : Alike p.ctx { p.ctx with writeTick := tick } := ⟨rfl,rfl,rfl,rfl,rfl,rfl⟩
    refine ⟨(invariantAlike alike).mpr inv.tidy,nofun,inv.logged,fun id new => ?_,fun j mem => ?_,nofun⟩
    · rcases new with none_ | ⟨_,none_⟩ <;> cases none_
    · exact List.mem_append_left _ (inv.asked j (by simpa [Pass.move,Writer.asking] using mem))
  | @pop fd i id last state got =>
    obtain ⟨res,hash,slots,T⟩ := inv.tidy
    obtain ⟨tidy,owned⟩ := tidyCacheGet T got
    have on := cacheGetOn T got
    obtain ⟨_,_,_,_,_,_,place⟩ := cacheGetLinks got
    have off : id ∉ p.logged := fun mem => Bool.false_ne_true ((inv.logged id mem).symm.trans on)
    refine ⟨tidy,fun j mine => ?_,fun j mem => ?_,fun j new => ?_,fun j mem => ?_,nofun⟩
    · cases Option.some.inj mine
      refine ⟨owned,?_,List.mem_append_right _ (List.mem_singleton.mpr rfl)⟩
      exact (congrArg Place.cacheList (place id)).trans (by rw [if_pos rfl])
    · have other : j ≠ id := fun same => off (same ▸ mem)
      exact (congrArg Place.cacheList ((place j).trans (if_neg other))).trans (inv.logged j mem)
    · rcases new with mine | ⟨_,none_⟩
      · cases Option.some.inj mine
        exact off
      · cases none_
    · exact List.mem_append_left _ (inv.asked j (by simpa [Pass.move,Writer.asking] using mem))
  | @work fd i id last writer out sent works fds handled silent mine =>
    cases fds
    have hand := worksHand works
    have off := inv.fresh id (Or.inl hand)
    obtain ⟨owned,_,inside⟩ := inv.held id (workingHand hand)
    have logs (beside : Beside p.ctx id last) : ∀ j ∈ p.logged,(last.place j).cacheList = false :=
      besideLogged inv beside off
    have asked : ∀ j ∈ (p.move last writer sent).requests,j ∈ (p.move last writer sent).popped := by
      intro j mem
      rcases workRequests handled mine j mem with old | ours
      · exact List.mem_append_left _ (inv.asked j old)
      · exact List.mem_append_left _ (ours ▸ inside)
    have still (beside : Beside p.ctx id last) (idle : (last.place id).cacheList = false) (j : UrlId) (same : j = id) :
        (last.place j).res = true ∧ (last.place j).cacheList = false ∧ j ∈ (p.move last writer sent).popped := by
      rw [same]
      exact ⟨beside.res.trans owned,idle,List.mem_append_left _ inside⟩
    have stage := workStage inv hand handled silent
    cases stage with
    | @finish i due beside idle requests state =>
      have handed (j : UrlId) (mine : writer.hand = some j) : j = id := by
        rw [show writer = _ from state] at mine
        cases fd : p.writer.fd <;> rw [fd] at mine <;> cases mine
        rfl
      refine ⟨beside.tidy,fun j mine => still beside idle j (handed j mine),logs beside,fun j new => ?_,asked,
        fun fd i j action calling => ?_⟩
      · have ours : j = id := by
          refine handed j ?_
          rcases new with working | ⟨_,logging⟩
          · exact workingHand working
          · rw [show writer = _ from logging]
            rfl
        exact ours ▸ off
      · rw [show writer = _ from state] at calling
        cases fd : p.writer.fd <;> rw [fd] at calling <;> cases calling
    | @call fd i action early beside idle requested state =>
      have writer_ : writer = .calling fd i id action := state
      refine ⟨beside.tidy,fun j mine => ?_,logs beside,fun j new => ?_,asked,fun _ _ j _ calling => ?_⟩
      · cases writer_
        cases Option.some.inj mine
        exact still beside idle id rfl
      · cases writer_
        rcases new with working | ⟨_,logging⟩
        · cases Option.some.inj working
          exact off
        · cases logging
      · cases writer_
        cases calling
        exact requested
    | @queue fd i early beside queued state =>
      have writer_ : writer = .pass fd i := state
      cases writer_
      refine ⟨beside.tidy,nofun,logs beside,fun j new => ?_,asked,nofun⟩
      rcases new with working | ⟨_,logging⟩
      · cases working
      · cases logging
  | @log i id text state wrote =>
    obtain ⟨owned,idle,inside⟩ := inv.held id (by rw [state]; rfl)
    refine ⟨inv.tidy,fun j mine => ?_,fun j mem => ?_,fun j new => ?_,fun j mem => ?_,nofun⟩
    · cases Option.some.inj mine
      exact ⟨owned,idle,List.mem_append_left _ inside⟩
    · unfold Pass.note at mem
      dsimp only at mem
      split at mem
      · rcases List.mem_cons.mp mem with rfl | old
        · exact idle
        · exact inv.logged j old
      · exact inv.logged j mem
    · rcases new with none_ | ⟨_,none_⟩ <;> cases none_
    · exact List.mem_append_left _ (inv.asked j (by simpa [Pass.note,Pass.move,Writer.asking] using mem))
  | @remove i id state due =>
    obtain ⟨owned,idle,_⟩ := inv.held id (by rw [state]; rfl)
    obtain ⟨res,hash,slots,T⟩ := inv.tidy
    refine ⟨tidyRelease T owned idle,nofun,fun j mem => ?_,fun j new => ?_,fun j mem => ?_,nofun⟩
    · change ((urlRelease p.ctx id).place j).cacheList = false
      rw [placeRelease]
      split
      · rfl
      · exact inv.logged j mem
    · rcases new with none_ | ⟨_,none_⟩ <;> cases none_
    · exact List.mem_append_left _ (inv.asked j (by simpa [Pass.move,Writer.asking] using mem))
  | @leave i id state other =>
    refine ⟨inv.tidy,nofun,inv.logged,fun j new => ?_,fun j mem => ?_,nofun⟩
    · rcases new with none_ | ⟨_,none_⟩ <;> cases none_
    · exact List.mem_append_left _ (inv.asked j (by simpa [Pass.move,Writer.asking] using mem))

def Pass.settled (p : Pass) (id : UrlId) : Prop :=
  (p.ctx.place id).cacheList = true ∨
    id ∈ p.logged ∧ ((p.ctx.urls id).urlAction = some .delete → (p.ctx.place id).res = false)

structure Pass.good (p : Pass) : Prop where
  settled : ∀ id ∈ p.popped,p.writer.hand ≠ some id → p.settled id
  logged : ∀ i id,p.writer = .removing i id → id ∈ p.logged

structure Pass.sound (p : Pass) (e : PassEvent) : Prop where
  opened : p.finishes e.1 = true → p.writer.fd = true
  wrote : ∀ i id,p.writer = .logging i id → e.2.fails (p.ctx.urls id).urlBuf = false

theorem settledBeside {p q : Pass} (other : j ≠ id) (beside : Beside p.ctx id q.ctx) (logged : q.logged = p.logged) :
    q.settled j ↔ p.settled j := by
  have same := beside.others j other
  have place : q.ctx.place j = p.ctx.place j := congrArg Core.place same
  unfold Pass.settled
  rw [place,logged,beside.action j]

theorem idleSound {p : Pass} {e : PassEvent} (hand : p.writer.hand = none) : p.sound e := by
  refine ⟨fun due => ?_,fun i id state => ?_⟩
  · unfold Pass.finishes at due
    cases state : p.writer <;> rw [state] at due hand <;> first | cases due | cases hand
  · rw [state] at hand
    cases hand

theorem removingSound {p : Pass} {e : PassEvent} {i : Nat} (state : p.writer = .removing i id) : p.sound e := by
  refine ⟨fun due => ?_,fun k j same => ?_⟩
  · unfold Pass.finishes at due
    rw [state] at due
    cases due
  · cases state.symm.trans same

theorem settledRelease (p : Pass) (j : UrlId) {i : Nat} :
    (p.move (urlRelease p.ctx id) (.pass true i) []).settled j ↔ j = id ∧ id ∈ p.logged ∨ j ≠ id ∧ p.settled j := by
  change ((urlRelease p.ctx id).place j).cacheList = true ∨ j ∈ p.logged ∧
    (((urlRelease p.ctx id).urls j).urlAction = some .delete → ((urlRelease p.ctx id).place j).res = false) ↔ _
  rw [placeRelease,releaseAction]
  split
  · rename_i same
    rw [same]
    simp
  · rename_i other
    simp only [other,false_and,false_or,ne_eq,not_false_eq_true,true_and]
    exact Iff.rfl

theorem passExact {p q : Pass} {e : PassEvent} (inv : Passing p) (good : p.good) (S : PassStep p e q) :
    q.good ↔ p.sound e := by
  cases S with
  | @quiet fd i tick state =>
    have free : p.writer.hand = none := by rw [state]; rfl
    refine iff_of_true ⟨fun j mem _ => ?_,nofun⟩ (idleSound free)
    exact good.settled j (by simpa [Pass.move,Writer.popping] using mem) (by rw [free]; nofun)
  | @pop fd i id last state got =>
    have free : p.writer.hand = none := by rw [state]; rfl
    obtain ⟨others,_⟩ := cacheGetOther got
    refine iff_of_true ⟨fun j mem mine => ?_,nofun⟩ (idleSound free)
    have other : j ≠ id := fun same => mine (congrArg some same.symm)
    have old : j ∈ p.popped := by
      rcases List.mem_append.mp mem with old | new
      · exact old
      · exact (other (List.mem_singleton.mp new)).elim
    have settled := good.settled j old (by rw [free]; nofun)
    unfold Pass.settled Ctx.place at settled ⊢
    change (last.urls j).place.cacheList = true ∨ j ∈ p.logged ∧
      ((last.urls j).urlAction = some .delete → (last.urls j).place.res = false)
    rw [others j other]
    exact settled
  | @work fd i id last writer out sent works fds handled silent mine =>
    cases fds
    have hand := worksHand works
    have off := inv.fresh id (Or.inl hand)
    have inside := (inv.held id (workingHand hand)).2.2
    have quiet : ∀ i j,p.writer ≠ .logging i j := by
      intro i j same
      rw [same] at hand
      cases hand
    have old (j : UrlId) (mem : j ∈ (p.move last writer sent).popped) (popping : writer.popping = []) : j ∈ p.popped := by
      simpa [Pass.move,popping] using mem
    have rest (beside : Beside p.ctx id last) (popping : writer.popping = []) (j : UrlId)
        (mem : j ∈ (p.move last writer sent).popped) (other : j ≠ id) : (p.move last writer sent).settled j := by
      refine (settledBeside (q := p.move last writer sent) other beside rfl).mpr (good.settled j (old j mem popping) ?_)
      rw [workingHand hand]
      exact fun same => other (Option.some.inj same).symm
    have stage := workStage inv hand handled silent
    cases stage with
    | @finish i due beside idle requests state =>
      have writer_ : writer = if p.writer.fd then .logging i id else .pass false i := state
      cases fd : p.writer.fd with
      | true =>
        rw [fd,if_pos rfl] at writer_
        cases writer_
        refine iff_of_true ⟨fun j mem mine => ?_,nofun⟩ ⟨fun _ => fd,fun i j same => (quiet i j same).elim⟩
        exact rest beside rfl j mem fun same => mine (congrArg some same.symm)
      | false =>
        rw [fd,if_neg Bool.false_ne_true] at writer_
        cases writer_
        refine iff_of_false (fun after => ?_) fun sound => Bool.false_ne_true (fd.symm.trans (sound.opened due))
        rcases after.settled id (List.mem_append_left _ inside) nofun with queued | logged
        · exact Bool.false_ne_true (idle.symm.trans queued)
        · exact off logged.1
    | @call fd i action early beside idle asked state =>
      have writer_ : writer = .calling fd i id action := state
      cases writer_
      refine iff_of_true ⟨fun j mem mine => ?_,nofun⟩ ⟨fun due => ?_,fun i j same => (quiet i j same).elim⟩
      · exact rest beside rfl j mem fun same => mine (congrArg some same.symm)
      · cases early.symm.trans due
    | @queue fd i early beside queued state =>
      have writer_ : writer = .pass fd i := state
      cases writer_
      refine iff_of_true ⟨fun j mem mine => ?_,nofun⟩ ⟨fun due => ?_,fun i j same => (quiet i j same).elim⟩
      · rcases Decidable.em (j = id) with rfl | other
        · exact Or.inl queued
        · exact rest beside rfl j mem other
      · cases early.symm.trans due
  | @log i id text state wrote =>
    have off := inv.fresh id (Or.inr ⟨i,state⟩)
    have closed : p.finishes e.1 = false := by
      unfold Pass.finishes
      rw [state]
    have sound : p.sound e ↔ text = logText ((p.ctx.urls id).urlAction == some .add) (p.ctx.urls id).urlBuf := by
      rw [appendAll wrote]
      refine ⟨fun sound => sound.wrote i id state,fun all => ⟨fun due => ?_,fun k j same => ?_⟩⟩
      · cases closed.symm.trans due
      · cases state.symm.trans same
        exact all
    rw [sound]
    constructor
    · intro after
      have logged := after.logged i id rfl
      unfold Pass.note at logged
      dsimp only at logged
      split at logged
      · assumption
      · exact (off logged).elim
    · intro all
      have more : ((p.move p.ctx (.removing i id) []).note id ((p.ctx.urls id).urlAction == some .add)
          (p.ctx.urls id).urlBuf text).logged = id :: p.logged := if_pos all
      refine ⟨fun j mem mine => ?_,fun k j same => ?_⟩
      · have other : j ≠ id := fun same => mine (congrArg some same.symm)
        have old : j ∈ p.popped := by simpa [Pass.note,Pass.move,Writer.popping] using mem
        rcases good.settled j old (by rw [state]; exact mine) with queued | ⟨logged,deleted⟩
        · exact Or.inl queued
        · exact Or.inr ⟨more ▸ List.mem_cons_of_mem id logged,deleted⟩
      · rw [more]
        cases same
        exact List.mem_cons_self
  | @remove i id state due =>
    refine iff_of_true ⟨fun j mem _ => ?_,nofun⟩ (removingSound state)
    refine (settledRelease p j).mpr ?_
    rcases Decidable.em (j = id) with rfl | other
    · exact Or.inl ⟨rfl,good.logged i j state⟩
    · refine Or.inr ⟨other,good.settled j (by simpa [Pass.move,Writer.popping] using mem) ?_⟩
      rw [state]
      exact fun same => other (Option.some.inj same).symm
  | @leave i id state other =>
    refine iff_of_true ⟨fun j mem _ => ?_,nofun⟩ (removingSound state)
    rcases Decidable.em (j = id) with rfl | differ
    · exact Or.inr ⟨good.logged i j state,fun due => (other due).elim⟩
    · refine good.settled j (by simpa [Pass.move,Writer.popping] using mem) ?_
      rw [state]
      exact fun same => differ (Option.some.inj same).symm

theorem passBad {p q : Pass} {e : PassEvent} (inv : Passing p) (S : PassStep p e q) (good : q.good) : p.good := by
  cases S with
  | @quiet fd i tick state =>
    refine ⟨fun j mem _ => good.settled j (List.mem_append_left _ mem) nofun,fun k j same => ?_⟩
    cases state.symm.trans same
  | @pop fd i id last state got =>
    obtain ⟨res,hash,slots,T⟩ := inv.tidy
    obtain ⟨others,_⟩ := cacheGetOther got
    refine ⟨fun j mem _ => ?_,fun k j same => ?_⟩
    · rcases Decidable.em (j = id) with rfl | other
      · exact Or.inl (cacheGetOn T got)
      · have settled := good.settled j (List.mem_append_left _ mem) fun same => other (Option.some.inj same).symm
        unfold Pass.settled Ctx.place at settled
        change (last.urls j).place.cacheList = true ∨ j ∈ p.logged ∧
          ((last.urls j).urlAction = some .delete → (last.urls j).place.res = false) at settled
        rw [others j other] at settled
        exact settled
    · cases state.symm.trans same
  | @work fd i id last writer out sent works fds handled silent mine =>
    cases fds
    have hand := worksHand works
    refine ⟨fun j mem off => ?_,fun k j same => ?_⟩
    · have other : j ≠ id := by
        rintro rfl
        exact off (workingHand hand)
      have rest (beside : Beside p.ctx id last) (free : writer.hand ≠ some j) : p.settled j :=
        (settledBeside (q := p.move last writer sent) other beside rfl).mp
          (good.settled j (List.mem_append_left _ mem) free)
      have elsewhere : some id ≠ some j := fun same => other (Option.some.inj same).symm
      cases workStage inv hand handled silent with
      | finish due beside idle requests state =>
        refine rest beside ?_
        rw [show writer = _ from state]
        cases p.writer.fd
        · nofun
        · exact elsewhere
      | call early beside idle asked state =>
        refine rest beside ?_
        rw [show writer = _ from state]
        exact elsewhere
      | queue early beside queued state =>
        refine rest beside ?_
        rw [show writer = _ from state]
        nofun
    · rw [same] at hand
      cases hand
  | @log i id text state wrote =>
    refine ⟨fun j mem off => ?_,fun k j same => ?_⟩
    · rw [state] at off
      rcases good.settled j (List.mem_append_left _ mem) off with queued | ⟨logged,deleted⟩
      · exact Or.inl queued
      · unfold Pass.note at logged
        dsimp only at logged
        split at logged
        · rcases List.mem_cons.mp logged with rfl | old
          · exact (off rfl).elim
          · exact Or.inr ⟨old,deleted⟩
        · exact Or.inr ⟨logged,deleted⟩
    · cases state.symm.trans same
  | @remove i id state due =>
    have inside := (inv.held id (by rw [state]; rfl)).2.2
    have settled (j : UrlId) (mem : j ∈ p.popped) :=
      (settledRelease p j).mp (good.settled j (List.mem_append_left _ mem) nofun)
    refine ⟨fun j mem off => ?_,fun k j same => ?_⟩
    · rcases settled j mem with ⟨rfl,_⟩ | ⟨_,kept⟩
      · rw [state] at off
        exact (off rfl).elim
      · exact kept
    · cases state.symm.trans same
      rcases settled id inside with ⟨_,logged⟩ | ⟨other,_⟩
      · exact logged
      · exact (other rfl).elim
  | @leave i id state other =>
    obtain ⟨_,idle,inside⟩ := inv.held id (by rw [state]; rfl)
    refine ⟨fun j mem _ => good.settled j (List.mem_append_left _ mem) nofun,fun k j same => ?_⟩
    cases state.symm.trans same
    rcases good.settled id (List.mem_append_left _ inside) nofun with queued | logged
    · exact (Bool.false_ne_true (idle.symm.trans queued)).elim
    · exact logged.1

def Pass.complete (p : Pass) : Prop :=
  ∃ res hash slots,Tidy p.ctx res hash slots ∧ ∀ id ∈ p.popped,(∃ k < httpCacheTimeOut,id ∈ slots k) ∨
    id ∈ p.logged ∧ ((p.ctx.urls id).urlAction = some .delete → id ∈ res .free)

theorem freeExactly {res : ResList → List UrlId} {hash : Nat → List UrlId} (T : Listed ctx res hash) :
    id ∈ res .free ↔ (ctx.place id).res = false := by
  refine ⟨notUsed T,fun off => (T.somewhere id).resolve_right fun use => ?_⟩
  exact Bool.false_ne_true (off.symm.trans ((T.inUse id).mp use))

theorem completeExactly {p : Pass} (inv : TableInvariant p.ctx) (ended : p.writer = .idle) : p.complete ↔ p.good := by
  have flags {res hash slots} (T : Tidy p.ctx res hash slots) (id : UrlId) : p.settled id ↔
      (∃ k < httpCacheTimeOut,id ∈ slots k) ∨
        id ∈ p.logged ∧ ((p.ctx.urls id).urlAction = some .delete → id ∈ res .free) := by
    unfold Pass.settled
    rw [T.onSlot id,freeExactly T.toListed]
  constructor
  · intro ⟨res,hash,slots,T,all⟩
    refine ⟨fun id mem _ => (flags T id).mpr (all id mem),fun i id same => ?_⟩
    cases ended.symm.trans same
  · intro good
    obtain ⟨res,hash,slots,T⟩ := inv
    exact ⟨res,hash,slots,T,fun id mem => (flags T id).mp (good.settled id mem (by rw [ended]; nofun))⟩

theorem startPassing (inv : TableInvariant ctx) (fd : Bool) : Passing (.start ctx fd) :=
  ⟨inv,nofun,nofun,nofun,nofun,nofun⟩

/-- At the end of a pass every popped entry is queued again or done with, exactly when the log was
open and took the whole record wherever the pass finished with an entry. -/
theorem passCompleteExactly (hz : Nat) {ctx : Ctx} (fd : Bool) {events : List PassEvent} {p : Pass}
    (inv : TableInvariant ctx) (path : run (Pass.step hz) (.start ctx fd) events = some p) (ended : p.writer = .idle) :
    p.complete ↔ Along (Pass.step hz) (fun p e _ => p.sound e) (.start ctx fd) events := by
  have kept {s : Pass} {e : PassEvent} {t : Pass} (inv : Passing s) (next : s.step hz e = some t) : Passing t :=
    passingStep inv (passSteps next)
  have last : Passing p := runInvariant (P := fun _ _ _ => True) (fun inv _ next => kept inv next) (startPassing inv fd)
    (alongInvariant (I := Passing) (P := fun _ _ _ => True) (fun inv _ next => ⟨kept inv next,trivial⟩) (startPassing inv fd)
      (alongTrue _ _)) path
  rw [completeExactly last.tidy ended]
  exact runExact kept (fun inv good next => passExact inv good (passSteps next))
    (fun inv bad next good => bad (passBad inv (passSteps next) good)) (startPassing inv fd) ⟨nofun,nofun⟩ path

def downloaded : Ctx :=
  ((ngxHttpSpUrlStateSetbyId 32767 .ok).exec ((ngxHttpSpUrlHandle (ascii "a/x.mp4") .add).exec (ngxHttpSnoopingInit 0)).2).2

theorem addMeets {name : Bytes} (clear : ∀ id,(ctx.urls id).urlFlags.urlHash = false) :
    (ngxHttpSpUrlHandle name .add).Meets TableOp.exec Orderly ctx := by
  unfold ngxHttpSpUrlHandle
  split
  · trivial
  · split
    · trivial
    · split
      · trivial
      · dsimp only
        split
        · trivial
        · refine ⟨trivial,?_⟩
          dsimp only [TableOp.exec]
          cases ngxHttpSnoopingUrlHashFind ctx _ with
          | none => exact ⟨Or.inr fun id set => (Bool.false_ne_true ((clear id).symm.trans set)).elim,trivial⟩
          | some id => exact ⟨trivial,trivial⟩

theorem progTidy {ctx : Ctx} {p : TableProg} (inv : TableInvariant ctx) (meets : p.Meets TableOp.exec Orderly ctx) :
    TableInvariant (p.exec ctx).2 := by
  refine runKeeps (I := TableInvariant) (fun {s} {op} inv orderly => ?_) inv meets
  obtain ⟨res,hash,slots,T⟩ := inv
  exact (sectionExact T op).mpr orderly

theorem downloadedTidy : TableInvariant downloaded := by
  refine progTidy (progTidy (tidyInit 0) (addMeets fun _ => rfl)) ?_
  unfold ngxHttpSpUrlStateSetbyId
  split
  · exact ⟨trivial,trivial⟩
  · trivial

def fullWrites (url : Nat) : LogWrites := ⟨[some 5],[some url],[some 2]⟩

def downloadedPass : List PassEvent :=
  [(.turn,fullWrites 0),(.work .saved,fullWrites 0),(.log,fullWrites 7),(.remove,fullWrites 0),(.turn,fullWrites 0)]

theorem downloadedEnd : (run (Pass.step 100) (.start downloaded true) downloadedPass).map Pass.writer = some .idle := by
  decide

theorem downloadedComplete : ∃ p,run (Pass.step 100) (.start downloaded true) downloadedPass = some p ∧
    (p.complete ↔ Along (Pass.step 100) (fun p e _ => p.sound e) (.start downloaded true) downloadedPass) := by
  obtain ⟨p,path,ended⟩ := Option.map_eq_some_iff.mp downloadedEnd
  exact ⟨p,path,passCompleteExactly 100 true downloadedTidy path ended⟩

theorem unloggedEnd : ((run (Pass.step 100) (.start downloaded false)
    [(.turn,fullWrites 0),(.work .saved,fullWrites 0),(.turn,fullWrites 0)]).map fun p =>
      (p.writer,p.popped,(p.ctx.place 32767).cacheList,p.logged)) = some (.idle,[32767],false,[]) := by
  decide

theorem unloggedDropped : TableInvariant downloaded ∧ ∃ p,run (Pass.step 100) (.start downloaded false)
    [(.turn,fullWrites 0),(.work .saved,fullWrites 0),(.turn,fullWrites 0)] = some p ∧ p.writer = .idle ∧ ¬p.complete := by
  obtain ⟨p,path,last⟩ := Option.map_eq_some_iff.mp unloggedEnd
  obtain ⟨ended,rest⟩ := Prod.mk.inj last
  obtain ⟨popped,rest⟩ := Prod.mk.inj rest
  obtain ⟨idle,logged⟩ := Prod.mk.inj rest
  refine ⟨downloadedTidy,p,path,ended,fun ⟨_,_,slots,T,all⟩ => ?_⟩
  rcases all 32767 (by rw [popped]; exact List.mem_cons_self) with on | done
  · exact Bool.false_ne_true (idle.symm.trans ((T.onSlot 32767).mpr on))
  · rw [logged] at done
    cases done.1

end MipsElfExec.Snooping
