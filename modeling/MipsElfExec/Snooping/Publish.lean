import MipsElfExec.Snooping.Capture
import MipsElfExec.Snooping.Steps

/-! Connections that fetch the URL of one entry, while it is written out now and then:
whether what is written is the body of one of their responses. -/
namespace MipsElfExec.Snooping
open CString Run

variable {κ : Type} {P : Platform} {id : UrlId} {pages : κ → Page} {ctx ctx' : Ctx} {con : Con}

structure Fetch (κ : Type) where
  cons : κ → Con
  ctx : Ctx
  came : κ → Bytes

inductive FetchEvent (κ : Type) where
  | data (k : κ) (pkts : List EfBuf) (token : Nat)
  | shut (k : κ) (side : Side)
  | write (outcome : WriteOutcome)

def writeTurn (ctx : Ctx) (id : UrlId) (outcome : WriteOutcome) : Ctx :=
  if (ctx.urls id).cacheFlg.spWrite = true ∧ (ctx.urls id).urlFlags.resWrite = false then
    ngxHttpUrlWrite ctx id outcome
  else ctx

section moves
variable [DecidableEq κ]

def Fetch.move (s : Fetch κ) (k : κ) (con : Con) (ctx : Ctx) (came : Bytes) : Fetch κ :=
  ⟨Function.update s.cons k con,ctx,Function.update s.came k came⟩

def Fetch.step (P : Platform) (id : UrlId) (pages : κ → Page) (s : Fetch κ) : FetchEvent κ → Option (Fetch κ)
  | .data k pkts token =>
    if s.came k ++ pktBytes pkts <+: (pages k).text then
      let o := ngxHttpSnoopingResponseParse P (s.cons k) s.ctx pkts token
      some (s.move k o.con o.ctx (s.came k ++ pktBytes pkts))
    else none
  | .shut k side =>
    let last := ngxHttpSnoopingShut (s.cons k) s.ctx side
    some (s.move k last.1 last.2 (s.came k))
  | .write outcome => some { s with ctx := writeTurn s.ctx id outcome }

end moves

def Con.frees (con : Con) (side : Side) : Bool := con.app side && !con.app side.pair && con.conFlags

def UrlEntry.passes (e : UrlEntry) : Bool :=
  e.urlFlags.resCache && e.urlFlags.cacheBufAlloc && e.urlResLen == e.urlDataLen

def Fetch.careful (id : UrlId) (pages : κ → Page) (s : Fetch κ) : FetchEvent κ → Prop
  | .data k pkts token =>
    ((s.cons k).conUrl = some id → (s.cons k).waits = true → token ≠ 0 ∨ pkts = []) ∧
    (Begins id (s.cons k) pkts → strstr (responseBuf (s.cons k) pkts) httpTransEncodingTypeChunked = none ∧
      ((s.ctx.urls id).urlFlags.cacheBufAlloc = true →
        0 < (pages k).body.length ∧ bufNeed (pages k).body.length ≤ s.ctx.bufs.bufNum) ∧
      ∀ j,j ≠ k → (s.cons j).receives = false)
  | .shut k side => (s.cons k).receives = true → (s.cons k).frees side = true →
    (s.ctx.urls id).urlFlags.cacheBufAlloc = true → (s.ctx.urls id).urlDataLen ≠ (s.ctx.urls id).urlResLen
  | .write _ => ((s.ctx.urls id).urlFlags.resCache = true → ∀ k,(s.cons k).receives = false) ∧
    ((s.ctx.urls id).passes = true → ∃ k,(s.cons k).accepted = true)

def Fetch.single (id : UrlId) (pages : κ → Page) (s : Fetch κ) (e : FetchEvent κ) (t : Fetch κ) : Prop :=
  match e with
  | .write _ => (s.ctx.urls id).urlFlags.resWrite = false → (t.ctx.urls id).urlFlags.resWrite = true →
    ∃ k,s.ctx.captured id = (pages k).body
  | _ => True

structure Fetching (id : UrlId) (pages : κ → Page) (s : Fetch κ) : Prop where
  held : ∀ k,Held id (s.cons k) (s.came k)
  pool : Pool s.ctx id
  rule : (s.ctx.urls id).cacheFlg.spWrite = true
  active : ∀ k,(s.cons k).receives = true → Active (pages k) (s.cons k) s.ctx id (s.came k)
  alone : ∀ k j,(s.cons k).receives = true → (s.cons j).receives = true → k = j
  stored : (∀ k,(s.cons k).receives = false) → (∃ k,(s.cons k).accepted = true) →
    ∃ k,(s.cons k).accepted = true ∧ Stored (pages k) s.ctx id

theorem markRule (rule : (ctx.urls id).cacheFlg.spWrite = true) :
    ((ctx.setFlags id ({ · with resCache := true })).urls id).cacheFlg.spWrite = true := by
  rw [cacheMark]
  exact rule

theorem markActive {page : Page} {came : Bytes} (active : Active page con ctx id came) :
    Active page con (ctx.setFlags id ({ · with resCache := true })) id came := by
  obtain ⟨plain,dataLen,headerLen,resLen,surplus,counted,small,passed⟩ := active
  refine ⟨plain,dataLen,headerLen,?_,surplus,counted,small,?_⟩
  · rw [cacheMark]
    exact resLen
  · rcases passed with ⟨none_,off⟩ | ⟨some_,text,came_,started,count,len,laid⟩
    · refine Or.inl ⟨none_,?_⟩
      rw [cacheMark]
      exact off
    · refine Or.inr ⟨some_,text,came_,?_,?_,?_,fun alloc => ?_⟩
      · rw [cacheMark]
        exact started
      · rw [cacheMark]
        exact count
      · rw [cacheMark]
        exact len
      · rw [cacheMark] at alloc ⊢
        exact laid alloc

theorem responseRule {pkts : List EfBuf} {token : Nat} (rule : (ctx.urls id).cacheFlg.spWrite = true) :
    ((ngxHttpSnoopingResponseParse P con ctx pkts token).ctx.urls id).cacheFlg.spWrite = true := by
  rw [(coreUrl ((repliedStill (responseCases P con ctx pkts token)).core id)).2]
  exact rule

variable {s t : Fetch κ} {k j : κ} {came : Bytes}

section steps
variable [DecidableEq κ]

theorem moveSelf (s : Fetch κ) (k : κ) (con : Con) (ctx : Ctx) (came : Bytes) :
    (s.move k con ctx came).cons k = con ∧ (s.move k con ctx came).came k = came := by
  simp [Fetch.move]

theorem moveOther (s : Fetch κ) (con : Con) (ctx : Ctx) (came : Bytes) (other : j ≠ k) :
    (s.move k con ctx came).cons j = s.cons j ∧ (s.move k con ctx came).came j = s.came j := by
  simp [Fetch.move,other]

theorem moveHeld (held : ∀ j,Held id (s.cons j) (s.came j)) (heldK : Held id con came) (ctx : Ctx) (j : κ) :
    Held id ((s.move k con ctx came).cons j) ((s.move k con ctx came).came j) := by
  rcases Decidable.em (j = k) with rfl | other
  · rw [(moveSelf s j con ctx came).1,(moveSelf s j con ctx came).2]
    exact heldK
  · rw [(moveOther s con ctx came other).1,(moveOther s con ctx came other).2]
    exact held j

theorem aloneFetching (held : ∀ j,Held id (s.cons j) (s.came j)) (heldK : Held id con came)
    (pool : Pool ctx id) (rule : (ctx.urls id).cacheFlg.spWrite = true) (others : ∀ j,j ≠ k → (s.cons j).receives = false)
    (moved : con.receives = true ∧ Active (pages k) con ctx id came ∨
      con.receives = false ∧ con.accepted = true ∧ Stored (pages k) ctx id) :
    Fetching id pages (s.move k con ctx came) := by
  have only (j : κ) (on : ((s.move k con ctx came).cons j).receives = true) : j = k := by
    refine Decidable.by_contra fun other => ?_
    rw [(moveOther s con ctx came other).1,others j other] at on
    cases on
  obtain ⟨here,bytes⟩ := moveSelf s k con ctx came
  refine ⟨moveHeld held heldK ctx,pool,rule,fun j on => ?_,fun i j first second => (only i first).trans (only j second).symm,
    fun none_ _ => ⟨k,?_⟩⟩
  · cases only j on
    rw [here] at on ⊢
    rw [bytes]
    rcases moved with ⟨_,active⟩ | ⟨off,_⟩
    · exact active
    · cases off.symm.trans on
  · have off := none_ k
    rw [here] at off ⊢
    rcases moved with ⟨on,_⟩ | ⟨_,accepted,stored⟩
    · cases on.symm.trans off
    · exact ⟨accepted,stored⟩

theorem quietFetching (F : Fetching id pages s) (heldK : Held id con came) (before : (s.cons k).receives = false)
    (after : con.receives = false) (same : con.accepted = (s.cons k).accepted)
    (table : ctx = s.ctx ∨ ctx = s.ctx.setFlags id ({ · with resCache := true })) :
    Fetching id pages (s.move k con ctx came) := by
  obtain ⟨held,pool,rule,active,alone,stored⟩ := F
  have receives (j : κ) : ((s.move k con ctx came).cons j).receives = (s.cons j).receives := by
    rcases Decidable.em (j = k) with rfl | other
    · rw [(moveSelf s j con ctx came).1,after,before]
    · rw [(moveOther s con ctx came other).1]
  have accepted (j : κ) : ((s.move k con ctx came).cons j).accepted = (s.cons j).accepted := by
    rcases Decidable.em (j = k) with rfl | other
    · rw [(moveSelf s j con ctx came).1,same]
    · rw [(moveOther s con ctx came other).1]
  refine ⟨moveHeld held heldK ctx,?_,?_,fun j on => ?_,fun i j first second => ?_,fun none_ some_ => ?_⟩
  · rcases table with rfl | rfl
    · exact pool
    · exact markPool pool
  · rcases table with rfl | rfl
    · exact rule
    · exact markRule rule
  · rw [receives j] at on
    have other : j ≠ k := by
      rintro rfl
      cases before.symm.trans on
    rw [(moveOther s con ctx came other).1,(moveOther s con ctx came other).2]
    rcases table with rfl | rfl
    · exact active j on
    · exact markActive (active j on)
  · rw [receives i] at first
    rw [receives j] at second
    exact alone i j first second
  · obtain ⟨i,some_⟩ := some_
    rw [accepted i] at some_
    obtain ⟨j,more,holds⟩ := stored (fun j => receives j ▸ none_ j) ⟨i,some_⟩
    refine ⟨j,(accepted j).trans more,?_⟩
    rcases table with rfl | rfl
    · exact holds
    · exact markStored holds

theorem dataFetching (getn : P.getn = ngxHttpEfGetn) (F : Fetching id pages s) {pkts : List EfBuf} {token : Nat}
    (careful : s.careful id pages (.data k pkts token)) (next : s.step P id pages (.data k pkts token) = some t) :
    Fetching id pages t := by
  unfold Fetch.step at next
  dsimp only at next
  split at next <;> try contradiction
  rename_i part
  cases Option.some.inj next
  obtain ⟨awake,clear⟩ := careful
  have rule := @responseRule P id s.ctx (s.cons k) pkts token F.rule
  obtain ⟨heldK,poolK,url,heard⟩ := responseHeard getn (F.held k) (F.active k) F.pool F.rule part awake
    fun begins => ⟨(clear begins).1,(clear begins).2.1⟩
  generalize ngxHttpSnoopingResponseParse P (s.cons k) s.ctx pkts token = o at rule heldK poolK url heard ⊢
  have others (began : (s.cons k).receives = true ∨ Begins id (s.cons k) pkts) (j : κ) (other : j ≠ k) :
      (s.cons j).receives = false := by
    rcases began with on | begins
    · exact Bool.eq_false_iff.mpr fun also => other (F.alone j k also on)
    · exact (clear begins).2.2 j other
  cases heard with
  | quiet before after same table => exact quietFetching F heldK before after same table
  | active began after active => exact aloneFetching F.held heldK poolK rule (others began) (Or.inl ⟨after,active⟩)
  | stored began after accepted stored =>
    exact aloneFetching F.held heldK poolK rule (others began) (Or.inr ⟨after,accepted,stored⟩)

theorem shutSame {side : Side} (idle : con.frees side = false) : (ngxHttpSnoopingShut con ctx side).2 = ctx ∧
    ((ngxHttpSnoopingShut con ctx side).1 = con ∨ (ngxHttpSnoopingShut con ctx side).1 = con.leave side) := by
  unfold Con.frees at idle
  unfold ngxHttpSnoopingShut
  split
  · rename_i here
    rw [here,Bool.true_and] at idle
    dsimp only
    have same : (con.leave side).app side.pair = con.app side.pair ∧ (con.leave side).conFlags = con.conFlags := by
      cases side <;> exact ⟨rfl,rfl⟩
    have kept : ¬((con.leave side).app side.pair = false ∧ (con.leave side).conFlags = true) := by
      rintro ⟨gone,live⟩
      rw [← same.1,← same.2,gone,live] at idle
      cases idle
    rw [if_neg kept]
    exact ⟨rfl,Or.inr rfl⟩
  · exact ⟨rfl,Or.inl rfl⟩

theorem shutFrees {side : Side} (frees : con.frees side = true) :
    (ngxHttpSnoopingShut con ctx side).1.conUrl = none ∧
    (ngxHttpSnoopingShut con ctx side).1.resState = con.resState ∧
    (ngxHttpSnoopingShut con ctx side).1.reqState = con.reqState ∧
    (ngxHttpSnoopingShut con ctx side).2 = match con.conUrl with
      | some id => ctx.setFlags id ({ · with resCache := true })
      | none => ctx := by
  unfold Con.frees at frees
  obtain ⟨both,live⟩ := Bool.and_eq_true_iff.mp frees
  obtain ⟨here,gone⟩ := Bool.and_eq_true_iff.mp both
  have gone' : con.app side.pair = false := by simpa using gone
  have same : (con.leave side).app side.pair = con.app side.pair ∧ (con.leave side).conFlags = con.conFlags := by
    cases side <;> exact ⟨rfl,rfl⟩
  unfold ngxHttpSnoopingShut
  rw [if_pos here]
  dsimp only
  rw [if_pos ⟨same.1.trans gone',same.2.trans live⟩]
  cases side <;> exact ⟨rfl,rfl,rfl,rfl⟩

theorem leaveHeld (H : Held id con came) (side : Side) : Held id (con.leave side) came := by
  obtain ⟨url,valid,settled,waiting⟩ := H
  have state : (con.leave side).resState = con.resState := by cases side <;> rfl
  have buf : (con.leave side).beginResponse.resBuf = con.beginResponse.resBuf := by
    unfold Con.beginResponse
    rw [state]
    split <;> cases side <;> rfl
  have waits (mine : con.conUrl = some id) (waits : con.waits = true) : Waiting (con.leave side) came := by
    obtain ⟨surplus,counted,queue,buf',partial_,short⟩ := waiting mine waits
    cases side <;> exact ⟨surplus,counted,queue,buf.trans buf',partial_,short⟩
  cases side <;> exact ⟨url,valid,settled,waits⟩

theorem leaveActive {page : Page} (A : Active page con ctx id came) (side : Side) :
    Active page (con.leave side) ctx id came := by
  obtain ⟨plain,dataLen,headerLen,resLen,surplus,counted,small,passed⟩ := A
  cases side <;> exact ⟨plain,dataLen,headerLen,resLen,surplus,counted,small,passed⟩

theorem leaveSame (con : Con) (side : Side) :
    (con.leave side).receives = con.receives ∧ (con.leave side).accepted = con.accepted := by
  cases side <;> exact ⟨rfl,rfl⟩

theorem stayFetching (F : Fetching id pages s) (held : Held id con (s.came k))
    (same : con.receives = (s.cons k).receives ∧ con.accepted = (s.cons k).accepted)
    (active : (s.cons k).receives = true → Active (pages k) con s.ctx id (s.came k)) :
    Fetching id pages (s.move k con s.ctx (s.came k)) := by
  cases on : (s.cons k).receives with
  | false => exact quietFetching F held on (same.1.trans on) same.2 (Or.inl rfl)
  | true =>
    refine aloneFetching F.held held F.pool F.rule (fun j other => ?_) (Or.inl ⟨same.1.trans on,active on⟩)
    exact Bool.eq_false_iff.mpr fun also => other (F.alone j k also on)

theorem shutFetching (F : Fetching id pages s) {side : Side} (careful : s.careful id pages (.shut k side)) :
    Fetching id pages (s.move k (ngxHttpSnoopingShut (s.cons k) s.ctx side).1
      (ngxHttpSnoopingShut (s.cons k) s.ctx side).2 (s.came k)) := by
  cases frees : (s.cons k).frees side with
  | false =>
    obtain ⟨table,same⟩ := @shutSame s.ctx (s.cons k) side frees
    rw [table]
    rcases same with same | same
    · rw [same]
      exact stayFetching F (F.held k) ⟨rfl,rfl⟩ (F.active k)
    · rw [same]
      exact stayFetching F (leaveHeld (F.held k) side) (leaveSame _ side) fun on => leaveActive (F.active k on) side
  | true =>
    obtain ⟨free,state,req,table⟩ := @shutFrees s.ctx (s.cons k) side frees
    obtain ⟨url,valid,settled,_⟩ := F.held k
    have held : Held id (ngxHttpSnoopingShut (s.cons k) s.ctx side).1 (s.came k) := by
      refine ⟨Or.inl free,req ▸ valid,state ▸ settled,fun mine => ?_⟩
      cases free.symm.trans mine
    have off : (ngxHttpSnoopingShut (s.cons k) s.ctx side).1.receives = false := by
      unfold Con.receives
      rw [free]
      exact Bool.false_and _
    have same : (ngxHttpSnoopingShut (s.cons k) s.ctx side).1.accepted = (s.cons k).accepted := by
      unfold Con.accepted
      rw [state]
    have marked (on : (s.cons k).receives = true) : (ngxHttpSnoopingShut (s.cons k) s.ctx side).2 =
        s.ctx.setFlags id ({ · with resCache := true }) := by
      rcases url with none_ | mine
      · unfold Con.receives at on
        rw [none_] at on
        cases on
      · rw [table,mine]
    cases on : (s.cons k).receives with
    | true =>
      rw [marked on]
      refine aloneFetching F.held held (markPool F.pool) (markRule F.rule) (fun j other => ?_) (Or.inr ⟨off,?_,?_⟩)
      · exact Bool.eq_false_iff.mpr fun also => other (F.alone j k also on)
      · rw [same]
        unfold Con.accepted
        unfold Con.receives at on
        rw [(Bool.and_eq_true_iff.mp on).2]
        rfl
      · exact markStored ⟨(F.active k on).resLen,fun alloc lens => (careful on frees alloc lens).elim⟩
    | false =>
      refine quietFetching F held on off same ?_
      rw [table]
      rcases url with none_ | mine
      · rw [none_]
        exact Or.inl rfl
      · rw [mine]
        exact Or.inr rfl

end steps

theorem freePool (pool : Pool ctx id) (lost : List Nat → List Nat)
    (some_ : List.Sublist (lost (ctx.urls id).dataBufList) (ctx.urls id).dataBufList) : Pool (urlBufsFree ctx id lost) id := by
  obtain ⟨nodup,counted⟩ := pool
  unfold urlBufsFree
  constructor
  · rw [modifySelf,List.nil_append]
    change ((lost (ctx.urls id).dataBufList).reverse ++ ctx.bufs.freeList).Nodup
    rw [List.nodup_append,List.nodup_reverse]
    obtain ⟨own,free,apart⟩ := List.nodup_append.mp nodup
    refine ⟨own.sublist some_,free,fun i mine j other => apart i (some_.subset (List.mem_reverse.mp mine)) j other⟩
  · change (ctx.bufs.bufNum + (lost (ctx.urls id).dataBufList).length) % 65536 ≤
      ((lost (ctx.urls id).dataBufList).reverse ++ ctx.bufs.freeList).length
    rw [List.length_append,List.length_reverse]
    have small := Nat.mod_le (ctx.bufs.bufNum + (lost (ctx.urls id).dataBufList).length) 65536
    omega

theorem flagsPool (pool : Pool ctx id) (f : UrlFlags → UrlFlags) : Pool (ctx.setFlags id f) id := by
  refine ⟨?_,pool.counted⟩
  rw [Ctx.setFlags,modifySelf]
  exact pool.nodup

inductive Turned (ctx : Ctx) (id : UrlId) (last : Ctx) : Prop where
  | same (kept : last = ctx)
  | unmarked (off : (ctx.urls id).urlFlags.cacheBufAlloc = false)
    (entry : last.urls id = (ctx.urls id).setFlags ({ · with resCache := false })) (pool : Pool ctx id → Pool last id)
  | freed (entry : last.urls id = { ctx.urls id with
      dataBufList := []
      urlDataLen := 0
      urlFlags := { (ctx.urls id).urlFlags with resCache := false } }) (pool : Pool ctx id → Pool last id)
  | saved (passes : (ctx.urls id).passes = true)
    (entry : last.urls id = { ctx.urls id with
      dataBufList := []
      urlFlags := { (ctx.urls id).urlFlags with resWrite := true } }) (pool : Pool ctx id → Pool last id)
  | failed (entry : last.urls id = { ctx.urls id with
      dataBufList := []
      urlFlags := { (ctx.urls id).urlFlags with resCache := false,cacheBufAlloc := false } })
    (pool : Pool ctx id → Pool last id)

theorem urlTurned (ctx : Ctx) (id : UrlId) (outcome : WriteOutcome) (off : (ctx.urls id).urlFlags.resWrite = false) :
    Turned ctx id (ngxHttpUrlWrite ctx id outcome) := by
  unfold ngxHttpUrlWrite
  dsimp only
  split
  · exact .same rfl
  · rename_i cache
    split
    · rename_i alloc
      exact .unmarked alloc (modifySelf ctx id _) fun pool => flagsPool pool _
    · rename_i alloc
      rw [if_neg (by rw [off]; exact Bool.false_ne_true)]
      split
      · refine .freed ?_ fun pool => ?_
        · rw [modifySelf,urlBufsFree,modifySelf]
        · have freed := freePool pool (fun ids => ids) (List.Sublist.refl _)
          refine ⟨?_,freed.counted⟩
          rw [modifySelf]
          exact freed.nodup
      · rename_i same
        have passes : (ctx.urls id).passes = true := by
          unfold UrlEntry.passes
          rw [Bool.eq_true_of_not_eq_false cache,Bool.eq_true_of_not_eq_false alloc,not_not.mp same]
          exact beq_self_eq_true _
        have drops (lost : List Nat → List Nat)
            (some_ : List.Sublist (lost (ctx.urls id).dataBufList) (ctx.urls id).dataBufList) :
            Turned ctx id ((urlBufsFree ctx id lost).setFlags id ({ · with resCache := false,cacheBufAlloc := false })) := by
          refine .failed ?_ fun pool => flagsPool (freePool pool lost some_) _
          rw [Ctx.setFlags,modifySelf,urlBufsFree,modifySelf]
          rfl
        cases outcome with
        | saved =>
          refine .saved passes ?_ fun pool => flagsPool (freePool pool (fun ids => ids) (List.Sublist.refl _)) _
          rw [bodyWrite,Ctx.setFlags,modifySelf,urlBufsFree,modifySelf]
          rfl
        | failed => exact drops _ (List.Sublist.refl _)
        | broken at_ =>
          refine drops _ ?_
          split
          · exact List.eraseIdx_sublist _ _
          · exact List.Sublist.refl _

theorem turnStored {page : Page} {last : Ctx} (turned : Turned ctx id last) (stored : Stored page ctx id) :
    Stored page last id := by
  obtain ⟨resLen,whole⟩ := stored
  cases turned with
  | same kept =>
    rw [kept]
    exact ⟨resLen,whole⟩
  | unmarked off entry pool =>
    refine ⟨?_,fun alloc => ?_⟩
    · rw [entry]
      exact resLen
    · rw [entry] at alloc
      cases off.symm.trans alloc
  | freed entry pool =>
    refine ⟨?_,fun _ same _ => ?_⟩
    · rw [entry]
      exact resLen
    · rw [entry] at same
      have none_ : page.body.length = 0 := resLen.symm.trans same.symm
      unfold Ctx.captured
      rw [entry,List.length_eq_zero_iff.mp none_]
      rfl
  | saved passes entry pool =>
    refine ⟨?_,fun _ _ off => ?_⟩
    · rw [entry]
      exact resLen
    · rw [entry] at off
      cases off
  | failed entry pool =>
    refine ⟨?_,fun alloc => ?_⟩
    · rw [entry]
      exact resLen
    · rw [entry] at alloc
      cases alloc

theorem turnPool {last : Ctx} (turned : Turned ctx id last) (pool : Pool ctx id) : Pool last id := by
  cases turned with
  | same kept => exact kept ▸ pool
  | unmarked _ _ kept | freed _ kept | saved _ _ kept | failed _ kept => exact kept pool

theorem turnPublished {last : Ctx} (turned : Turned ctx id last) (before : (ctx.urls id).urlFlags.resWrite = false)
    (after : (last.urls id).urlFlags.resWrite = true) : (ctx.urls id).passes = true := by
  cases turned with
  | same kept =>
    rw [kept,before] at after
    cases after
  | saved passes _ _ => exact passes
  | unmarked _ entry _ | freed entry _ | failed entry _ =>
    rw [entry] at after
    cases before.symm.trans after

theorem writeFetching (F : Fetching id pages s) {outcome : WriteOutcome} (careful : s.careful id pages (.write outcome)) :
    Fetching id pages { s with ctx := writeTurn s.ctx id outcome } ∧
      s.single id pages (.write outcome) { s with ctx := writeTurn s.ctx id outcome } := by
  obtain ⟨quiet,accepted⟩ := careful
  cases write : (s.ctx.urls id).urlFlags.resWrite with
  | true =>
    have same : writeTurn s.ctx id outcome = s.ctx := if_neg (by rw [write]; simp)
    rw [same]
    exact ⟨F,fun off => by cases write.symm.trans off⟩
  | false =>
    have turn : writeTurn s.ctx id outcome = ngxHttpUrlWrite s.ctx id outcome := if_pos ⟨F.rule,write⟩
    have turned := urlTurned s.ctx id outcome write
    have core := (urlWriteStill s.ctx id outcome).core id
    rw [turn]
    cases cache : (s.ctx.urls id).urlFlags.resCache with
    | false =>
      have same : ngxHttpUrlWrite s.ctx id outcome = s.ctx := if_pos cache
      rw [same]
      refine ⟨F,fun off on => ?_⟩
      cases off.symm.trans on
    | true =>
      have none_ := quiet cache
      refine ⟨⟨F.held,turnPool turned F.pool,?_,fun k on => ?_,F.alone,fun _ some_ => ?_⟩,fun off on => ?_⟩
      · rw [(coreUrl core).2]
        exact F.rule
      · cases (none_ k).symm.trans on
      · obtain ⟨k,more,stored⟩ := F.stored none_ some_
        exact ⟨k,more,turnStored turned stored⟩
      · have passes := turnPublished turned off on
        obtain ⟨k,_,stored⟩ := F.stored none_ (accepted passes)
        unfold UrlEntry.passes at passes
        obtain ⟨both,lens⟩ := Bool.and_eq_true_iff.mp passes
        exact ⟨k,stored.whole (Bool.and_eq_true_iff.mp both).2 (beq_iff_eq.mp lens).symm off⟩

theorem fetchSteps [DecidableEq κ] (getn : P.getn = ngxHttpEfGetn) {e : FetchEvent κ} (F : Fetching id pages s)
    (careful : s.careful id pages e) (next : s.step P id pages e = some t) :
    Fetching id pages t ∧ s.single id pages e t := by
  cases e with
  | data k pkts token => exact ⟨dataFetching getn F careful next,trivial⟩
  | shut k side =>
    cases Option.some.inj next
    exact ⟨shutFetching F careful,trivial⟩
  | write outcome =>
    cases Option.some.inj next
    exact writeFetching F careful

structure Requesting (id : UrlId) (con : Con) : Prop where
  url : con.conUrl = some id
  valid : con.reqState ≠ .requestHeaderError
  state : con.resState = .init
  queue : con.responsePktChain = efBufInitChain

theorem requestingHeld (R : Requesting id con) : Held id con [] := by
  refine ⟨Or.inr R.url,R.valid,by rw [R.state]; exact SpState.noConfusion,fun _ _ => ⟨?_,?_,?_,?_,rfl,by decide⟩⟩
  · rw [R.queue]
    rfl
  · rw [R.queue]
    rfl
  · rw [R.queue]
    rfl
  · unfold Con.beginResponse
    rw [if_pos R.state]

theorem requestingFetching {cons : κ → Con} (requesting : ∀ k,Requesting id (cons k)) (pool : Pool ctx id)
    (rule : (ctx.urls id).cacheFlg.spWrite = true) (pages : κ → Page) :
    Fetching id pages ⟨cons,ctx,fun _ => []⟩ := by
  have off (k : κ) : (cons k).receives = false ∧ (cons k).accepted = false := by
    unfold Con.receives Con.accepted
    rw [(requesting k).state]
    exact ⟨Bool.and_false _,rfl⟩
  refine ⟨fun k => requestingHeld (requesting k),pool,rule,fun k on => ?_,fun i j on => ?_,fun _ ⟨k,on⟩ => ?_⟩
  · cases (off k).1.symm.trans on
  · cases (off i).1.symm.trans on
  · cases (off k).2.symm.trans on

theorem fetchSingle [DecidableEq κ] (hz : Nat) (addrText : Nat → Bytes) (mimeOf : Bytes → Bytes) {cons : κ → Con}
    (requesting : ∀ k,Requesting id (cons k)) (pool : Pool ctx id) (rule : (ctx.urls id).cacheFlg.spWrite = true)
    (pages : κ → Page) {events : List (FetchEvent κ)}
    (careful : Along (Fetch.step (snoopingPlatform hz addrText mimeOf) id pages) (fun s e _ => s.careful id pages e)
      ⟨cons,ctx,fun _ => []⟩ events) :
    Along (Fetch.step (snoopingPlatform hz addrText mimeOf) id pages) (fun s e t => s.single id pages e t)
      ⟨cons,ctx,fun _ => []⟩ events :=
  alongInvariant (I := Fetching id pages) (P := fun s e _ => s.careful id pages e) (Q := fun s e t => s.single id pages e t)
    (fun F careful next => fetchSteps rfl F careful next) (requestingFetching requesting pool rule pages) careful

def Fetch.whole (id : UrlId) (page : Page) (s : Fetch Unit) (e : FetchEvent Unit) (t : Fetch Unit) : Prop :=
  match e with
  | .write _ => (s.ctx.urls id).urlFlags.resWrite = false → (t.ctx.urls id).urlFlags.resWrite = true →
    s.ctx.captured id = page.body
  | _ => True

/-- In every careful run of one connection, a write that goes through writes the whole body. -/
theorem wholePublished (hz : Nat) (addrText : Nat → Bytes) (mimeOf : Bytes → Bytes) {con : Con}
    (requesting : Requesting id con) (pool : Pool ctx id) (rule : (ctx.urls id).cacheFlg.spWrite = true) (page : Page)
    {events : List (FetchEvent Unit)}
    (careful : Along (Fetch.step (snoopingPlatform hz addrText mimeOf) id fun _ => page)
      (fun s e _ => s.careful id (fun _ => page) e) ⟨fun _ => con,ctx,fun _ => []⟩ events) :
    Along (Fetch.step (snoopingPlatform hz addrText mimeOf) id fun _ => page) (fun s e t => s.whole id page e t)
      ⟨fun _ => con,ctx,fun _ => []⟩ events := by
  refine alongImp (fun {s e t} single => ?_) (fetchSingle hz addrText mimeOf (fun _ => requesting) pool rule _ careful)
  cases e with
  | data k pkts token => trivial
  | shut k side => trivial
  | write outcome => exact fun off on => (single off on).choose_spec

/-- In every careful run of two connections, a write that goes through writes the body of one response. -/
theorem singlePublished (hz : Nat) (addrText : Nat → Bytes) (mimeOf : Bytes → Bytes) {cons : Fin 2 → Con}
    (requesting : ∀ k,Requesting id (cons k)) (pool : Pool ctx id) (rule : (ctx.urls id).cacheFlg.spWrite = true)
    (pages : Fin 2 → Page) {events : List (FetchEvent (Fin 2))}
    (careful : Along (Fetch.step (snoopingPlatform hz addrText mimeOf) id pages) (fun s e _ => s.careful id pages e)
      ⟨cons,ctx,fun _ => []⟩ events) :
    Along (Fetch.step (snoopingPlatform hz addrText mimeOf) id pages) (fun s e t => s.single id pages e t)
      ⟨cons,ctx,fun _ => []⟩ events :=
  fetchSingle hz addrText mimeOf requesting pool rule pages careful

section runs

instance decidableBegins (id : UrlId) (con : Con) (pkts : List EfBuf) : Decidable (Begins id con pkts) :=
  inferInstanceAs (Decidable (_ ∧ _ ∧ _))

instance decidableCareful [Fintype κ] [DecidableEq κ] (s : Fetch κ) (e : FetchEvent κ) :
    Decidable (s.careful id pages e) :=
  match e with
  | .data _ _ _ => inferInstanceAs (Decidable (_ ∧ (_ → _ ∧ _ ∧ _)))
  | .shut _ _ => inferInstanceAs (Decidable (_ → _ → _ → _))
  | .write _ => inferInstanceAs (Decidable (_ ∧ _))

instance decidableSingle [Fintype κ] (s : Fetch κ) (e : FetchEvent κ) (t : Fetch κ) :
    Decidable (s.single id pages e t) :=
  match e with
  | .data _ _ _ => .isTrue trivial
  | .shut _ _ => .isTrue trivial
  | .write _ => inferInstanceAs (Decidable (_ → _ → _))

instance decidableWhole (page : Page) (s : Fetch Unit) (e : FetchEvent Unit) (t : Fetch Unit) :
    Decidable (s.whole id page e t) :=
  match e with
  | .data _ _ _ => .isTrue trivial
  | .shut _ _ => .isTrue trivial
  | .write _ => inferInstanceAs (Decidable (_ → _ → _))

def writtenCtx : Ctx :=
  (ngxHttpSnoopingInit 0).modify 0 fun e => { e with pcacheRule := some ⟨{ spWrite := true },0,[],[],[],[],[],none,none⟩ }

def forwarded : Con := { conFlags := true,clientApp := true,serverApp := true,reqState := .done,conUrl := some 0 }

theorem forwardedRequesting : Requesting 0 forwarded := ⟨rfl,nofun,rfl,rfl⟩

theorem writtenPool : Pool writtenCtx 0 := by
  refine ⟨?_,(initPool 0 0).counted⟩
  unfold writtenCtx
  rw [modifySelf]
  exact (initPool 0 0).nodup

def pageHead (length : String) : Bytes :=
  ascii "HTTP/1.1 200 OK" ++ crlf ++ ascii "Content-Type: a" ++ crlf ++ ascii "Content-Length: " ++ ascii length ++ httpEnd

def longPage : Page := ⟨pageHead "80",List.replicate 80 97,by decide +kernel,by decide +kernel⟩

def longFetch : List (FetchEvent Unit) :=
  [.data () [⟨1,longPage.text⟩] 1,.shut () .client,.shut () .server,.write .saved]

theorem longPublished : Along (Fetch.step (snoopingPlatform 100 (fun _ => []) (fun _ => [])) 0 fun _ => longPage)
    (fun s e t => s.whole 0 longPage e t) ⟨fun _ => forwarded,writtenCtx,fun _ => []⟩ longFetch :=
  wholePublished 100 (fun _ => []) (fun _ => []) forwardedRequesting writtenPool (by decide) longPage
    (by decide +kernel)

theorem cutPublished : ¬Along (Fetch.step (snoopingPlatform 100 (fun _ => []) (fun _ => [])) 0 fun _ => longPage)
    (fun s e t => s.whole 0 longPage e t) ⟨fun _ => forwarded,writtenCtx,fun _ => []⟩
    [.data () [⟨1,longPage.text.take 80⟩] 1,.shut () .client,.shut () .server,.write .saved] := by
  decide +kernel

def shortPages (k : Fin 2) : Page :=
  ⟨pageHead "4",List.replicate 4 (if k = 0 then 97 else 98),by decide +kernel,by rw [List.length_replicate]; decide +kernel⟩

def shortFetch : List (FetchEvent (Fin 2)) :=
  [.data 0 [⟨1,(shortPages 0).text⟩] 1,.write .saved,.data 1 [⟨2,(shortPages 1).text⟩] 1]

theorem shortPublished : Along (Fetch.step (snoopingPlatform 100 (fun _ => []) (fun _ => [])) 0 shortPages)
    (fun s e t => s.single 0 shortPages e t) ⟨fun _ => forwarded,writtenCtx,fun _ => []⟩ shortFetch :=
  singlePublished 100 (fun _ => []) (fun _ => []) (fun _ => forwardedRequesting) writtenPool (by decide) shortPages
    (by decide +kernel)

theorem mixedPublished : ¬Along (Fetch.step (snoopingPlatform 100 (fun _ => []) (fun _ => [])) 0 shortPages)
    (fun s e t => s.single 0 shortPages e t) ⟨fun _ => forwarded,writtenCtx,fun _ => []⟩
    [.data 0 [⟨1,(shortPages 0).text.take 57⟩] 1,.data 1 [⟨2,(shortPages 1).text.take 56⟩] 1,
      .data 0 [⟨3,(shortPages 0).text.drop 57⟩] 1,.data 1 [⟨4,((shortPages 1).text.drop 56).take 1⟩] 1,
      .write .saved] := by
  decide +kernel

end runs

end MipsElfExec.Snooping
