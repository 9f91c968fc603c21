import MipsElfExec.Snooping.Connection
import MipsElfExec.Snooping.Steps

/-! What the response side of a connection does with its packets and with the entry of
the request, stage by stage. -/
namespace MipsElfExec.Snooping
open CString

variable {P : Platform} {con : Con} {ctx ctx' : Ctx} {id : UrlId} {token : Nat} {arrived : List EfBuf}

section entry

structure Served where
  redirectAddr : Nat
  resWrite : Bool
  ngxDown : Bool
  ngxParseOk : Bool
  ngxWaitResponse : Bool
  deriving DecidableEq, Repr

def UrlEntry.served (e : UrlEntry) : Served :=
  ⟨e.redirectAddr,e.urlFlags.resWrite,e.urlFlags.ngxDown,e.urlFlags.ngxParseOk,e.urlFlags.ngxWaitResponse⟩

def UrlEntry.kept (e : UrlEntry) : Core × Served := (e.core,e.served)

structure Only (id : UrlId) (ctx ctx' : Ctx) : Prop where
  still : Still ctx ctx'
  served : (ctx'.urls id).served = (ctx.urls id).served
  others : ∀ j,j ≠ id → ctx'.urls j = ctx.urls j

structure Plain (id : UrlId) (ctx ctx' : Ctx) : Prop extends Only id ctx ctx' where
  mime : (ctx'.urls id).mimePostfix = (ctx.urls id).mimePostfix

theorem onlyRefl (id : UrlId) (ctx : Ctx) : Only id ctx ctx := ⟨stillRefl ctx,rfl,fun _ _ => rfl⟩

theorem onlyTrans {ctx'' : Ctx} (first : Only id ctx ctx') (second : Only id ctx' ctx'') : Only id ctx ctx'' :=
  ⟨stillTrans first.still second.still,second.served.trans first.served,
    fun j other => (second.others j other).trans (first.others j other)⟩

theorem onlyModify {f : UrlEntry → UrlEntry} (same : (f (ctx.urls id)).kept = (ctx.urls id).kept) :
    Only id ctx (ctx.modify id f) :=
  ⟨stillModify (congrArg Prod.fst same),by rw [modifySelf]; exact congrArg Prod.snd same,
    fun j other => modifyOther ctx f other⟩

theorem plainRefl (id : UrlId) (ctx : Ctx) : Plain id ctx ctx := ⟨onlyRefl id ctx,rfl⟩

theorem plainTrans {ctx'' : Ctx} (first : Plain id ctx ctx') (second : Plain id ctx' ctx'') : Plain id ctx ctx'' :=
  ⟨onlyTrans first.toOnly second.toOnly,second.mime.trans first.mime⟩

theorem plainModify {f : UrlEntry → UrlEntry} (same : (f (ctx.urls id)).kept = (ctx.urls id).kept)
    (mime : (f (ctx.urls id)).mimePostfix = (ctx.urls id).mimePostfix) : Plain id ctx (ctx.modify id f) :=
  ⟨onlyModify same,by rw [modifySelf]; exact mime⟩

theorem plainFlags {f : UrlFlags → UrlFlags} (same : ((ctx.urls id).setFlags f).kept = (ctx.urls id).kept) :
    Plain id ctx (ctx.setFlags id f) :=
  plainModify same rfl

theorem plainBufs {f : UrlEntry → UrlEntry} {bufs : BufPool} (same : (f (ctx.urls id)).kept = (ctx.urls id).kept)
    (mime : (f (ctx.urls id)).mimePostfix = (ctx.urls id).mimePostfix) :
    Plain id ctx ({ ctx with bufs := bufs }.modify id f) :=
  ⟨⟨stillBufs (congrArg Prod.fst same),by rw [modifySelf]; exact congrArg Prod.snd same,
    fun j other => modifyOther { ctx with bufs := bufs } f other⟩,by rw [modifySelf]; exact mime⟩

theorem keptLen (e : UrlEntry) (n : Nat) : ({ e with urlDataLen := n } : UrlEntry).kept = e.kept := rfl

theorem captureOnly (headerLen : Nat) (ctx : Ctx) (id : UrlId) (data : Bytes) :
    Plain id ctx (bodyCapture headerLen ctx id data) := by
  unfold bodyCapture
  dsimp only
  split
  · exact plainBufs rfl rfl
  · exact plainModify rfl rfl

theorem startOnly (con : Con) (ctx : Ctx) (id : UrlId) : Plain id ctx (bodyStart con ctx id) := by
  have alloc (ctx : Ctx) : Plain id ctx (ngxHttpSnoopingCacheBufAlloc ctx con.dataLen id) := by
    unfold ngxHttpSnoopingCacheBufAlloc
    dsimp only
    split
    · exact plainBufs rfl rfl
    · exact plainModify rfl rfl
  have started : Plain id ctx (ctx.modify id fun e => { e with dataStart := true }) := plainModify rfl rfl
  unfold bodyStart
  dsimp only
  split
  · exact plainRefl id ctx
  · split
    · split
      · exact plainTrans started (alloc _)
      · exact plainTrans started (plainTrans (alloc _) (plainFlags rfl))
    · exact started

theorem packetsOnly (con : Con) (ctx : Ctx) (id : UrlId) (chain : Chain) : Plain id ctx (bodyPackets con ctx id chain) := by
  have packets (ps : List EfBuf) (ctx : Ctx) :
      Plain id ctx (ps.foldl (fun ctx p => bodyCapture con.responseHeaderLen ctx id p.data) ctx) := by
    induction ps generalizing ctx with
    | nil => exact plainRefl id ctx
    | cons p ps ih => exact plainTrans (captureOnly _ ctx id p.data) (ih _)
  exact plainTrans (startOnly con ctx id) (packets _ _)

theorem endOnly (con : Con) (ctx : Ctx) (id : UrlId) :
    Plain id ctx (bodyEnd con ctx id).2 ∧ ∃ state,(bodyEnd con ctx id).1 = { con with resState := state } := by
  unfold bodyEnd
  split <;> dsimp only
  · exact ⟨plainModify (keptLen _ _) rfl,.done,rfl⟩
  · exact ⟨plainRefl id ctx,con.resState,rfl⟩

theorem cacheBufOnly (con : Con) (ctx : Ctx) (id : UrlId) (chain : Chain) :
    Plain id ctx (ngxHttpSnoopingCacheBuf con ctx id chain).2 ∧
    ∃ state,(ngxHttpSnoopingCacheBuf con ctx id chain).1 = { con with resState := state } := by
  unfold ngxHttpSnoopingCacheBuf
  split
  · exact ⟨plainRefl id ctx,con.resState,rfl⟩
  · obtain ⟨only,same⟩ := endOnly con (bodyPackets con ctx id chain) id
    exact ⟨plainTrans (packetsOnly con ctx id chain) only,same⟩

theorem dataPlain (P : Platform) (con : Con) (ctx : Ctx) (id : UrlId) (token : Nat) :
    Plain id ctx (responseData P con ctx id token).ctx := by
  have plain := (cacheBufOnly (responseForward P con ctx token).con ctx id (responseForward P con ctx token).chain).1
  unfold responseData
  dsimp only
  split
  · exact plain
  · exact plainTrans plain (plainFlags rfl)

theorem acceptPlain (P : Platform) (con : Con) (ctx : Ctx) (id : UrlId) (text : Bytes) (token : Nat) :
    Plain id ctx (responseAccept P con ctx id text token).ctx := by
  unfold responseAccept
  exact plainTrans (plainModify rfl rfl) (dataPlain P _ _ id token)

end entry

section stages

def Con.keeps (con con' : Con) : Prop :=
  con'.requestPktChain = con.requestPktChain ∧ con'.conUrl = con.conUrl ∧ con'.conFlags = con.conFlags ∧
  con'.clientApp = con.clientApp ∧ con'.serverApp = con.serverApp

structure Responded (P : Platform) (con : Con) (ctx : Ctx) (id : UrlId) (token : Nat) (reach : Bool) (o : Outcome) :
    Prop where
  queue : (o.chain,o.con.responsePktChain) =
    if reach then P.getn con.responsePktChain token else (efBufInitChain,con.responsePktChain)
  keeps : con.keeps o.con
  only : Only id ctx o.ctx
  silent : o.reply = none ∧ o.freed = []

theorem respondedAfter {mid : Con} {reach : Bool} {o : Outcome} (rest : Responded P mid ctx' id token reach o)
    (queue : mid.responsePktChain = con.responsePktChain) (keeps : con.keeps mid) (only : Only id ctx ctx') :
    Responded P con ctx id token reach o := by
  obtain ⟨front,url,flags,client,server⟩ := keeps
  obtain ⟨queue',⟨front',url',flags',client',server'⟩,only',silent⟩ := rest
  refine ⟨?_,⟨front'.trans front,url'.trans url,flags'.trans flags,client'.trans client,server'.trans server⟩,
    onlyTrans only only',silent⟩
  rw [queue',queue]

theorem forwardResponded (P : Platform) (con : Con) (ctx : Ctx) (id : UrlId) (token : Nat) :
    Responded P con ctx id token true (responseForward P con ctx token) :=
  ⟨rfl,⟨rfl,rfl,rfl,rfl,rfl⟩,onlyRefl id ctx,⟨rfl,rfl⟩⟩

theorem errorResponded (P : Platform) (con : Con) (ctx : Ctx) (id : UrlId) (token : Nat) :
    Responded P con ctx id token true (responseError P con ctx token) :=
  ⟨rfl,⟨rfl,rfl,rfl,rfl,rfl⟩,onlyRefl id ctx,⟨rfl,rfl⟩⟩

theorem dataResponded (P : Platform) (con : Con) (ctx : Ctx) (id : UrlId) (token : Nat) :
    Responded P con ctx id token true (responseData P con ctx id token) := by
  obtain ⟨_,state,same⟩ := cacheBufOnly (responseForward P con ctx token).con ctx id
    (responseForward P con ctx token).chain
  have only := (dataPlain P con ctx id token).toOnly
  have kept : con.keeps (ngxHttpSnoopingCacheBuf (responseForward P con ctx token).con ctx id
      (responseForward P con ctx token).chain).1 := by
    rw [same]
    exact ⟨rfl,rfl,rfl,rfl,rfl⟩
  have queue : (ngxHttpSnoopingCacheBuf (responseForward P con ctx token).con ctx id
      (responseForward P con ctx token).chain).1.responsePktChain = (P.getn con.responsePktChain token).2 := by
    rw [same]
    rfl
  unfold responseData at only ⊢
  dsimp only at only ⊢
  split at only <;> rename_i state
  · rw [if_pos state]
    exact ⟨Prod.ext rfl queue,kept,only,⟨rfl,rfl⟩⟩
  · rw [if_neg state]
    exact ⟨Prod.ext rfl queue,kept,only,⟨rfl,rfl⟩⟩

theorem acceptResponded (P : Platform) (con : Con) (ctx : Ctx) (id : UrlId) (text : Bytes) (token : Nat) :
    Responded P con ctx id token true (responseAccept P con ctx id text token) := by
  unfold responseAccept
  exact respondedAfter (dataResponded P _ _ id token) rfl ⟨rfl,rfl,rfl,rfl,rfl⟩ (onlyModify rfl)

theorem headerResponded (P : Platform) (con : Con) (ctx : Ctx) (id : UrlId) (token : Nat) :
    Responded P con ctx id token true (responseHeader P con ctx id token) := by
  have typed (type : Bytes) : Only id ctx
      (if con.postFix then ctx.modify id fun e => { e with mimePostfix := P.mimeOf type } else ctx) := by
    split
    · exact onlyModify rfl
    · exact onlyRefl id ctx
  unfold responseHeader
  dsimp only
  split
  · exact errorResponded P con ctx id token
  · split
    · exact errorResponded P con ctx id token
    · rename_i type _
      split
      · exact respondedAfter (acceptResponded P _ _ id _ token) rfl ⟨rfl,rfl,rfl,rfl,rfl⟩ (typed type)
      · split
        · exact respondedAfter (errorResponded P _ _ id token) rfl ⟨rfl,rfl,rfl,rfl,rfl⟩ (typed type)
        · exact respondedAfter (errorResponded P _ _ id token) rfl ⟨rfl,rfl,rfl,rfl,rfl⟩ (typed type)
        · exact respondedAfter (acceptResponded P _ _ id _ token) rfl ⟨rfl,rfl,rfl,rfl,rfl⟩
            (onlyTrans (typed type) (onlyModify rfl))

def responseBuf (con : Con) (arrived : List EfBuf) : Bytes :=
  headerFill (httpSpResHeadLenMax - 1) con.beginResponse.resBuf arrived

def Con.replied (con : Con) (arrived : List EfBuf) (state : SpState) : Con :=
  { con.beginResponse with resBuf := responseBuf con arrived,resState := state }

def Con.framed (con : Con) (arrived : List EfBuf) (n : Nat) : Con :=
  { con.replied arrived .requestHeader with responseHeaderLen := n + httpEnd.length }

theorem responsePart (missing : strstr (responseBuf con arrived) httpEnd = none)
    (few : (responseBuf con arrived).length < httpSpResHeadLenMax - 1) :
    responseInit P con ctx id arrived token = { con := con.replied arrived .initData,ctx := ctx } := by
  unfold responseInit
  dsimp only
  split
  · exact if_neg (Nat.not_le_of_lt few)
  · rename_i n found
    cases found.symm.trans missing

theorem responseLong (missing : strstr (responseBuf con arrived) httpEnd = none)
    (long : httpSpResHeadLenMax - 1 ≤ (responseBuf con arrived).length) :
    responseInit P con ctx id arrived token = responseError P (con.replied arrived .initData) ctx token := by
  unfold responseInit
  dsimp only
  split
  · exact if_pos long
  · rename_i n found
    cases found.symm.trans missing

theorem responseWhole {n : Nat} (found : strstr (responseBuf con arrived) httpEnd = some n) :
    responseInit P con ctx id arrived token = responseHeader P (con.framed arrived n) ctx id token := by
  unfold responseInit
  dsimp only
  split
  · rename_i missing
    cases found.symm.trans missing
  · rename_i m again
    cases Option.some.inj (found.symm.trans again)
    rfl

def statesReach (con : Con) (arrived : List EfBuf) : Bool :=
  match con.resState with
  | .init | .initData =>
    (strstr (responseBuf con arrived) httpEnd).isSome || httpSpResHeadLenMax - 1 ≤ (responseBuf con arrived).length
  | .done => false
  | _ => true

theorem beginResponseSame (con : Con) :
    con.beginResponse.responsePktChain = con.responsePktChain ∧ con.keeps con.beginResponse := by
  unfold Con.beginResponse
  split <;> exact ⟨rfl,rfl,rfl,rfl,rfl,rfl⟩

theorem initResponded (P : Platform) (con : Con) (ctx : Ctx) (id : UrlId) (arrived : List EfBuf) (token : Nat)
    (starts : con.resState = .init ∨ con.resState = .initData) :
    Responded P con ctx id token (statesReach con arrived) (responseInit P con ctx id arrived token) := by
  obtain ⟨queue,keeps⟩ := beginResponseSame con
  have reach : statesReach con arrived =
      ((strstr (responseBuf con arrived) httpEnd).isSome ||
        decide (httpSpResHeadLenMax - 1 ≤ (responseBuf con arrived).length)) := by
    rcases starts with state | state <;> simp [statesReach,state]
  rw [reach]
  cases found : strstr (responseBuf con arrived) httpEnd with
  | none =>
    rcases Nat.lt_or_ge (responseBuf con arrived).length (httpSpResHeadLenMax - 1) with short | long
    · rw [responsePart found short,decide_eq_false (Nat.not_le_of_lt short)]
      exact ⟨by rw [← queue]; rfl,keeps,onlyRefl id ctx,⟨rfl,rfl⟩⟩
    · rw [responseLong found long,decide_eq_true long]
      exact respondedAfter (errorResponded P _ ctx id token) queue keeps (onlyRefl id ctx)
  | some n =>
    rw [responseWhole found]
    exact respondedAfter (headerResponded P _ ctx id token) queue keeps (onlyRefl id ctx)

theorem statesResponded (P : Platform) (con : Con) (ctx : Ctx) (id : UrlId) (arrived : List EfBuf) (token : Nat) :
    Responded P con ctx id token (statesReach con arrived) (responseStates P con ctx id arrived token) := by
  unfold responseStates
  cases state : con.resState with
  | init => exact initResponded P con ctx id arrived token (Or.inl state)
  | initData => exact initResponded P con ctx id arrived token (Or.inr state)
  | requestHeader =>
    have reach : statesReach con arrived = true := by simp [statesReach,state]
    exact reach ▸ headerResponded P con ctx id token
  | done =>
    have reach : statesReach con arrived = false := by simp [statesReach,state]
    rw [reach]
    exact ⟨rfl,⟨rfl,rfl,rfl,rfl,rfl⟩,(plainFlags rfl).toOnly,⟨rfl,rfl⟩⟩
  | dataLine =>
    have reach : statesReach con arrived = true := by simp [statesReach,state]
    exact reach ▸ dataResponded P con ctx id token
  | requestHeaderError =>
    have reach : statesReach con arrived = true := by simp [statesReach,state]
    exact reach ▸ errorResponded P con ctx id token
  | requestHeaderData | dataLineData | headerError | dataError =>
    have reach : statesReach con arrived = true := by simp [statesReach,state]
    exact reach ▸ forwardResponded P con ctx id token

inductive Replied (P : Platform) (con : Con) (ctx : Ctx) (arrived : List EfBuf) (token : Nat) : Outcome → Prop where
  | wait (idle : con.responsePktChain.count = 0 ∨ token = 0) : Replied P con ctx arrived token { con := con,ctx := ctx }
  | plain (free : con.conUrl = none ∨ con.reqState = .requestHeaderError) :
    Replied P con ctx arrived token
      { responseForward P con ctx token with con := (responseForward P con ctx token).con.nextRequest }
  | page {id o} (owner : con.conUrl = some id) (valid : con.reqState ≠ .requestHeaderError)
    (responded : Responded P con ctx id token (statesReach con arrived) o) :
    Replied P con ctx arrived token (responseDiscard o id)

theorem responseCases (P : Platform) (con : Con) (ctx : Ctx) (arrived : List EfBuf) (token : Nat) :
    Replied P (con.enqueueResponse arrived) ctx arrived token (ngxHttpSnoopingResponseParse P con ctx arrived token) := by
  unfold ngxHttpSnoopingResponseParse
  dsimp only
  split
  · rename_i idle
    exact .wait idle
  · split
    · rename_i none_
      exact .plain (Or.inl none_)
    · rename_i id owner
      split
      · rename_i error
        exact .plain (Or.inr error)
      · rename_i valid
        exact .page owner valid (statesResponded P _ ctx id arrived token)

def responseReaches (con : Con) (arrived : List EfBuf) : Bool :=
  con.conUrl.isNone || con.reqState == .requestHeaderError || statesReach con arrived

theorem discardSame (o : Outcome) (id : UrlId) :
    (responseDiscard o id).con = o.con ∧ (responseDiscard o id).ctx = o.ctx ∧
    (responseDiscard o id).reply = o.reply := by
  unfold responseDiscard
  dsimp only
  split <;> exact ⟨rfl,rfl,rfl⟩

theorem repliedStill {o : Outcome} (replied : Replied P con ctx arrived token o) : Still ctx o.ctx := by
  cases replied with
  | wait idle => exact stillRefl ctx
  | plain free => exact stillRefl ctx
  | @page id o owner valid responded =>
    rw [(discardSame o id).2.1]
    exact responded.only.still

theorem discardNothing {o : Outcome} {id : UrlId} (pass : (responseDiscard o id).freed = [])
    (whole : o.chain.count = o.chain.pkts.length) : responseDiscard o id = o := by
  unfold responseDiscard at pass ⊢
  dsimp only at pass ⊢
  split at pass
  · rename_i due
    replace pass : o.chain.pkts = [] := pass
    rw [pass] at whole
    exact (due.2.1 whole).elim
  · rename_i kept
    exact if_neg kept

theorem responseQueues {o : Outcome} (replied : Replied P con ctx arrived token o)
    (live : ¬(con.responsePktChain.count = 0 ∨ token = 0)) (pass : o.freed = [])
    (whole : (P.getn con.responsePktChain token).1.count = (P.getn con.responsePktChain token).1.pkts.length) :
    (o.chain,o.con.responsePktChain) =
      (if responseReaches con arrived then P.getn con.responsePktChain token
        else (efBufInitChain,con.responsePktChain)) ∧ o.con.requestPktChain = con.requestPktChain := by
  cases replied with
  | wait idle => exact (live idle).elim
  | plain free =>
    have reach : responseReaches con arrived = true := by
      rcases free with none_ | error
      · simp [responseReaches,none_]
      · simp [responseReaches,error]
    rw [reach]
    exact ⟨rfl,rfl⟩
  | @page id o owner valid responded =>
    have reach : responseReaches con arrived = statesReach con arrived := by simp [responseReaches,owner,valid]
    have queue := responded.queue
    rw [← reach] at queue
    have counted : o.chain.count = o.chain.pkts.length := by
      have chain : o.chain = _ := congrArg Prod.fst queue
      rw [chain]
      split
      · exact whole
      · rfl
    rw [discardNothing pass counted]
    exact ⟨queue,responded.keeps.1⟩

end stages

end MipsElfExec.Snooping
