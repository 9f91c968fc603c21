import MipsElfExec.Snooping.Delivery

/-! What a connection block keeps of its last user: two connections that differ in the
fields which the hand-out leaves alone, event by event. -/
namespace MipsElfExec.Snooping
open CString Run

structure Leftover where
  encodingType : EncodingType
  transEncodingType : Bool
  postFix : Bool
  reqDataLen : Int
  dataLen : Nat
  responseHeaderLen : Nat
  deriving DecidableEq, Repr

def Con.holding (con : Con) (l : Leftover) : Con :=
  { con with
    encodingType := l.encodingType
    transEncodingType := l.transEncodingType
    postFix := l.postFix
    reqDataLen := l.reqDataLen
    dataLen := l.dataLen
    responseHeaderLen := l.responseHeaderLen }

def Con.left (con : Con) : Leftover :=
  ⟨con.encodingType,con.transEncodingType,con.postFix,con.reqDataLen,con.dataLen,con.responseHeaderLen⟩

def Leftover.marked (l : Leftover) (mark postFix : Bool) : Leftover :=
  { l with postFix := if mark then postFix else l.postFix }

def Outcome.holding (o : Outcome) (l : Leftover) : Outcome := { o with con := o.con.holding l }

section request
variable {P : Platform} {env : ReplyEnv} {con : Con} {ctx : Ctx} {token : Nat} {arrived : List EfBuf} {l : Leftover}

theorem finishHolding (P : Platform) (o : Outcome) (l : Leftover) (token : Nat) :
    requestFinish P (o.holding l) token = (requestFinish P o token).holding l := by
  have state : (o.holding l).con.reqState = o.con.reqState := rfl
  unfold requestFinish
  rw [state]
  cases o.con.reqState <;> rfl

theorem answerHolding (P : Platform) (env : ReplyEnv) (con : Con) (ctx : Ctx) (resUrl : Bytes) (l : Leftover) :
    requestAnswer P env (con.holding l) ctx resUrl = (requestAnswer P env con ctx resUrl).holding l := by
  have url : (con.holding l).conUrl = con.conUrl := rfl
  unfold requestAnswer
  rw [url]
  cases con.conUrl with
  | none => rfl
  | some id =>
    dsimp only
    split
    · unfold ngxHttpSnoopingUrlForbidden
      split
      · rfl
      · split <;> rfl
    · split
      · have client : (con.holding l).clientAddr = con.clientAddr := rfl
        unfold ngxHttpSnoopingUrlRedirect
        rw [client]
        split
        · rfl
        · split
          · rfl
          · split <;> rfl
      · rfl

def records (ctx : Ctx) (server res : Bytes) : Bool :=
  match recordTarget server res with
  | some (rule,key) =>
    rule.cacheFlg.actionCacheSp && !urlKnown ctx key && ((ngxHttpSnoopingUrlRecord server res).exec ctx).1.isSome
  | none => false

theorem recordHolding (con : Con) (ctx : Ctx) (server res : Bytes) (l : Leftover) :
    urlRecord (con.holding l) ctx server res = ((urlRecord con ctx server res).1.holding
      (l.marked (records ctx server res) (urlRecord con ctx server res).1.postFix),(urlRecord con ctx server res).2) := by
  unfold urlRecord records Leftover.marked
  cases target : recordTarget server res with
  | none => rfl
  | some found =>
    obtain ⟨rule,key⟩ := found
    generalize (ngxHttpSnoopingUrlRecord server res).exec ctx = put
    obtain ⟨id,after⟩ := put
    dsimp only
    by_cases due : (rule.cacheFlg.actionCacheSp && !urlKnown ctx key && id.isSome) = true
    · rw [if_pos due,if_pos due,if_pos due]
      rfl
    · rw [if_neg due,if_neg due,if_neg due]
      rfl

def headerRecords (ctx : Ctx) (text : Bytes) : Bool :=
  match requestHead text with
  | some head => head.method == .get && records ctx head.serverName head.resUrl
  | none => false

theorem doneHolding (P : Platform) (o : Outcome) (l : Leftover) (token : Nat) :
    requestDone P (o.holding l) token = (requestDone P o token).holding l :=
  finishHolding P { o with con := { o.con with reqState := .done } } l token

theorem donePostFix (P : Platform) (env : ReplyEnv) (con : Con) (ctx : Ctx) (resUrl : Bytes) (token : Nat) :
    (requestDone P (requestAnswer P env con ctx resUrl) token).con.left = con.left := by
  have answered := answerCases P env con ctx resUrl
  generalize requestAnswer P env con ctx resUrl = o at answered ⊢
  cases answered <;> rfl

theorem getHolding (P : Platform) (env : ReplyEnv) (con : Con) (ctx : Ctx) (head : RequestHead) (token : Nat)
    (l : Leftover) : requestDone P (requestAnswer P env (urlRecord (con.holding l) ctx head.serverName head.resUrl).1
        (urlRecord (con.holding l) ctx head.serverName head.resUrl).2 head.resUrl) token =
      (requestDone P (requestAnswer P env (urlRecord con ctx head.serverName head.resUrl).1
        (urlRecord con ctx head.serverName head.resUrl).2 head.resUrl) token).holding
      (l.marked (records ctx head.serverName head.resUrl) (urlRecord con ctx head.serverName head.resUrl).1.postFix) := by
  rw [recordHolding]
  dsimp only
  rw [answerHolding,doneHolding]

theorem bodiedHolding (con : Con) (rest : Bytes) (l : Leftover) :
    ∃ n,(con.holding l).bodied rest = (con.bodied rest).holding { l with reqDataLen := n } := by
  unfold Con.bodied
  cases requestLength rest with
  | missing => exact ⟨0,rfl⟩
  | bad => exact ⟨requestRefused rest l.reqDataLen,rfl⟩
  | value n => exact ⟨n,rfl⟩

theorem headerHolding (P : Platform) (env : ReplyEnv) (con : Con) (ctx : Ctx) (token : Nat) (l : Leftover) :
    ∃ n,requestHeader P env (con.holding l) ctx token = (requestHeader P env con ctx token).holding
      (Leftover.marked { l with reqDataLen := n } (headerRecords ctx (cstr con.reqBuf))
        (requestHeader P env con ctx token).con.postFix) := by
  unfold headerRecords
  cases known : requestHead (cstr con.reqBuf) with
  | none =>
    rw [headerBad known,@headerBad _ _ (con.holding l) _ _ known]
    exact ⟨l.reqDataLen,finishHolding P { con := { con.headed with reqState := .requestHeaderError },ctx := ctx } l token⟩
  | some head =>
    dsimp only
    by_cases get : head.method = .get
    · rw [headerRecorded known get,@headerRecorded _ _ (con.holding l) _ _ _ known get,get]
      have left := congrArg Leftover.postFix (donePostFix P env (urlRecord con.headed ctx head.serverName head.resUrl).1
        (urlRecord con.headed ctx head.serverName head.resUrl).2 head.resUrl token)
      refine ⟨l.reqDataLen,(getHolding P env con.headed ctx head token l).trans ?_⟩
      rw [show Con.postFix _ = Con.postFix _ from left]
      rfl
    · rw [headerBodied known get,@headerBodied _ _ (con.holding l) _ _ _ known get,beq_eq_false_iff_ne.mpr get,
        Bool.false_and]
      obtain ⟨n,same⟩ := bodiedHolding con.headed head.rest l
      refine ⟨n,?_⟩
      rw [show (con.holding l).headed.bodied head.rest = _ from same]
      exact finishHolding P { con := con.headed.bodied head.rest,ctx := ctx } { l with reqDataLen := n } token

theorem bufferedHolding (con : Con) (arrived : List EfBuf) (state : SpState) (l : Leftover) :
    requestBuf (con.holding l) arrived = requestBuf con arrived ∧
    ∃ n,(con.holding l).buffered arrived state = (con.buffered arrived state).holding { l with reqDataLen := n } := by
  have begin_ : (con.holding l).begin = con.begin.holding { l with reqDataLen := (con.holding l).begin.reqDataLen } := by
    unfold Con.begin Con.holding
    dsimp only
    split <;> rfl
  have buf : requestBuf (con.holding l) arrived = requestBuf con arrived := by
    unfold requestBuf
    rw [begin_]
    rfl
  refine ⟨buf,(con.holding l).begin.reqDataLen,?_⟩
  unfold Con.buffered
  rw [buf,begin_]
  rfl

def requestRecords (con : Con) (ctx : Ctx) (arrived : List EfBuf) (token : Nat) : Bool :=
  if (con.enqueue arrived).requestPktChain.count = 0 ∨ token = 0 then false
  else match headerText (con.enqueue arrived) arrived with
  | some text => headerRecords ctx text
  | none => false

theorem initHolding (P : Platform) (env : ReplyEnv) (con : Con) (ctx : Ctx) (arrived : List EfBuf) (token : Nat)
    (l : Leftover) (starts : con.reqState = .init ∨ con.reqState = .initData) :
    ∃ n,requestInit P env (con.holding l) ctx arrived token = (requestInit P env con ctx arrived token).holding
      (Leftover.marked { l with reqDataLen := n }
        (match headerText con arrived with | some text => headerRecords ctx text | none => false)
        (requestInit P env con ctx arrived token).con.postFix) := by
  obtain ⟨buf,_⟩ := bufferedHolding con arrived .init l
  rw [headerTextInit starts]
  cases found : strstr (requestBuf con arrived) httpEnd with
  | none =>
    rcases Nat.lt_or_ge (httpSpReqHeadLenMax - 1) (requestBuf con arrived).length with long | short
    · obtain ⟨n,same⟩ := (bufferedHolding con arrived .requestHeaderError l).2
      rw [initLong found long,initLong (buf ▸ found) (buf ▸ long),same]
      exact ⟨n,finishHolding P { con := con.buffered arrived .requestHeaderError,ctx := ctx } { l with reqDataLen := n } token⟩
    · obtain ⟨n,same⟩ := (bufferedHolding con arrived .initData l).2
      rw [initPart found short,initPart (buf ▸ found) (buf ▸ short),same]
      exact ⟨n,rfl⟩
  | some k =>
    obtain ⟨n,same⟩ := (bufferedHolding con arrived .requestHeader l).2
    rw [initWhole found,initWhole (buf ▸ found),same]
    exact headerHolding P env _ ctx token _

theorem requestHolding (P : Platform) (env : ReplyEnv) (con : Con) (ctx : Ctx) (arrived : List EfBuf) (token : Nat)
    (l : Leftover) : ∃ n,ngxHttpSnoopingRequestParse P env (con.holding l) ctx arrived token =
      (ngxHttpSnoopingRequestParse P env con ctx arrived token).holding
        (Leftover.marked { l with reqDataLen := n } (requestRecords con ctx arrived token)
          (ngxHttpSnoopingRequestParse P env con ctx arrived token).con.postFix) := by
  have queue : (con.holding l).enqueue arrived = (con.enqueue arrived).holding l := rfl
  unfold requestRecords ngxHttpSnoopingRequestParse
  rw [queue]
  generalize con.enqueue arrived = con
  have state_ : (con.holding l).reqState = con.reqState := rfl
  have count : (con.holding l).requestPktChain = con.requestPktChain := rfl
  dsimp only
  rw [state_,count]
  by_cases idle : con.requestPktChain.count = 0 ∨ token = 0
  · simp only [if_pos idle]
    exact ⟨l.reqDataLen,rfl⟩
  simp only [if_neg idle]
  cases state : con.reqState with
  | init => exact initHolding P env con ctx arrived token l (Or.inl state)
  | initData => exact initHolding P env con ctx arrived token l (Or.inr state)
  | requestHeader =>
    have text : headerText con arrived = some (cstr con.reqBuf) := by
      unfold headerText
      rw [state]
    rw [text]
    exact headerHolding P env con ctx token l
  | _ =>
    have text : headerText con arrived = none := by
      unfold headerText
      rw [state]
    rw [text]
    exact ⟨l.reqDataLen,finishHolding P { con := con,ctx := ctx } l token⟩

end request

section response
variable {P : Platform} {con : Con} {ctx : Ctx} {id : UrlId} {token : Nat} {arrived : List EfBuf} {l : Leftover}

structure PageSame (con : Con) (l : Leftover) : Prop where
  coded : l.transEncodingType = con.transEncodingType
  header : l.responseHeaderLen = con.responseHeaderLen
  length : con.transEncodingType = false → l.dataLen = con.dataLen

theorem cacheHolding (ctx : Ctx) (id : UrlId) (chain : Chain) (same : PageSame con l) :
    ngxHttpSnoopingCacheBuf (con.holding l) ctx id chain =
      ((ngxHttpSnoopingCacheBuf con ctx id chain).1.holding l,(ngxHttpSnoopingCacheBuf con ctx id chain).2) := by
  have coded : (con.holding l).transEncodingType = con.transEncodingType := same.coded
  unfold ngxHttpSnoopingCacheBuf
  rw [coded]
  split
  · rfl
  · rename_i plain
    have length : (con.holding l).dataLen = con.dataLen :=
      same.length (Bool.eq_false_of_not_eq_true fun coded => plain (Or.inl coded))
    have header : (con.holding l).responseHeaderLen = con.responseHeaderLen := same.header
    have packets : bodyPackets (con.holding l) ctx id chain = bodyPackets con ctx id chain := by
      unfold bodyPackets bodyStart
      rw [header,length]
    have sum : word ((con.holding l).dataLen + (con.holding l).responseHeaderLen) =
        word (con.dataLen + con.responseHeaderLen) := by rw [length,header]
    unfold bodyEnd
    rw [packets,sum]
    split
    · refine Prod.ext rfl ?_
      dsimp only
      rw [header]
    · rfl

theorem dataHolding (P : Platform) (ctx : Ctx) (id : UrlId) (token : Nat) (same : PageSame con l) :
    responseData P (con.holding l) ctx id token = (responseData P con ctx id token).holding l := by
  have forward : responseForward P (con.holding l) ctx token = (responseForward P con ctx token).holding l := rfl
  have kept : PageSame (responseForward P con ctx token).con l := ⟨same.coded,same.header,same.length⟩
  unfold responseData
  rw [forward]
  dsimp only [Outcome.holding]
  rw [cacheHolding _ id _ kept]
  dsimp only
  have state (con : Con) : (con.holding l).resState = con.resState := rfl
  rw [state]
  split <;> rfl

theorem acceptHolding (P : Platform) (ctx : Ctx) (id : UrlId) (text : Bytes) (token : Nat) (same : PageSame con l) :
    responseAccept P (con.holding l) ctx id text token =
      (responseAccept P con ctx id text token).holding { l with encodingType := responseEncoding text } := by
  have kept : PageSame { con with encodingType := responseEncoding text,resState := .dataLine }
      { l with encodingType := responseEncoding text } := ⟨same.coded,same.header,same.length⟩
  exact dataHolding P _ id token kept

theorem dataLeft (P : Platform) (con : Con) (ctx : Ctx) (id : UrlId) (token : Nat) :
    (responseData P con ctx id token).con.left = con.left := by
  obtain ⟨_,state,same⟩ := cacheBufOnly (responseForward P con ctx token).con ctx id
    (responseForward P con ctx token).chain
  have left := congrArg Con.left same
  unfold responseData
  dsimp only
  split <;> exact left

def responseTyped (P : Platform) (con : Con) (ctx : Ctx) (id : UrlId) (text : Bytes) (token : Nat) : Outcome :=
  if (strstr text httpTransEncodingTypeChunked).isSome then
    responseAccept P { con with transEncodingType := true } ctx id text token
  else
    match responseContentLen text with
    | .missing => responseError P { con with transEncodingType := false } ctx token
    | .bad => responseError P { con with transEncodingType := false,dataLen := 0 } ctx token
    | .value n =>
      responseAccept P { con with transEncodingType := false,dataLen := n }
        (ctx.modify id fun e => { e with urlResLen := n }) id text token

def typeMarked (P : Platform) (postFix : Bool) (ctx : Ctx) (id : UrlId) (type : Bytes) : Ctx :=
  if postFix then ctx.modify id fun e => { e with mimePostfix := P.mimeOf type } else ctx

theorem headerRefused (refused : responseType (cstr con.resBuf) = none) :
    responseHeader P con ctx id token = responseError P con ctx token := by
  unfold responseType at refused
  unfold responseHeader
  dsimp only
  split
  · rfl
  · rename_i ok
    rw [if_pos (Bool.eq_true_of_not_eq_false ok)] at refused
    rw [refused]

theorem headerTyped {type : Bytes} (known : responseType (cstr con.resBuf) = some type) :
    responseHeader P con ctx id token =
      responseTyped P con (typeMarked P con.postFix ctx id type) id (cstr con.resBuf) token := by
  unfold responseType at known
  split at known <;> try contradiction
  rename_i ok
  unfold responseHeader
  dsimp only
  rw [if_neg (by rw [ok]; exact Bool.false_ne_true.symm),known]
  rfl

structure Follows (o o' : Outcome) (l : Leftover) : Prop where
  same : ∃ l',o' = o.holding l' ∧ l'.postFix = l.postFix ∧ (o.con.resState = .dataLine → PageSame o.con l')

theorem pageCarried {con' : Con} {e e' : EncodingType} (same : PageSame con l)
    (left : con'.left = { con.left with encodingType := e }) : PageSame con' { l with encodingType := e' } := by
  have coded := congrArg Leftover.transEncodingType left
  exact ⟨same.coded.trans coded.symm,same.header.trans (congrArg Leftover.responseHeaderLen left).symm,fun plain =>
    (same.length (coded.symm.trans plain)).trans (congrArg Leftover.dataLen left).symm⟩

theorem acceptFollows (P : Platform) (ctx : Ctx) (id : UrlId) (text : Bytes) (token : Nat) (same : PageSame con l) :
    Follows (responseAccept P con ctx id text token) (responseAccept P (con.holding l) ctx id text token) l := by
  exact ⟨_,acceptHolding P ctx id text token same,rfl,fun _ => pageCarried same (dataLeft P _ _ id token)⟩

theorem errorFollows (P : Platform) (con : Con) (ctx : Ctx) (token : Nat) (l : Leftover) :
    Follows (responseError P con ctx token) (responseError P (con.holding l) ctx token) l :=
  ⟨l,rfl,rfl,nofun⟩

theorem typedFollows (P : Platform) (ctx : Ctx) (id : UrlId) (text : Bytes) (token : Nat)
    (header : l.responseHeaderLen = con.responseHeaderLen) :
    Follows (responseTyped P con ctx id text token) (responseTyped P (con.holding l) ctx id text token) l := by
  unfold responseTyped
  split
  · have same : PageSame { con with transEncodingType := true } { l with transEncodingType := true } :=
      ⟨rfl,header,nofun⟩
    obtain ⟨l',alike,post,page⟩ := acceptFollows P ctx id text token same
    exact ⟨l',alike,post,page⟩
  · cases responseContentLen text with
    | missing =>
      obtain ⟨l',alike,post,page⟩ := errorFollows P { con with transEncodingType := false } ctx token
        { l with transEncodingType := false }
      exact ⟨l',alike,post,page⟩
    | bad =>
      obtain ⟨l',alike,post,page⟩ := errorFollows P { con with transEncodingType := false,dataLen := 0 } ctx token
        { l with transEncodingType := false,dataLen := 0 }
      exact ⟨l',alike,post,page⟩
    | value n =>
      have same : PageSame { con with transEncodingType := false,dataLen := n }
          { l with transEncodingType := false,dataLen := n } := ⟨rfl,header,fun _ => rfl⟩
      obtain ⟨l',alike,post,page⟩ := acceptFollows P (ctx.modify id fun e => { e with urlResLen := n }) id text token same
      exact ⟨l',alike,post,page⟩

theorem typedMime (P : Platform) (con : Con) (ctx : Ctx) (id : UrlId) (text : Bytes) (token : Nat) :
    ((responseTyped P con ctx id text token).ctx.urls id).mimePostfix = (ctx.urls id).mimePostfix := by
  unfold responseTyped
  split
  · exact (acceptPlain P _ ctx id text token).mime
  · cases responseContentLen text with
    | missing => rfl
    | bad => rfl
    | value n =>
      have plain : Plain id ctx (ctx.modify id fun e => { e with urlResLen := n }) := plainModify rfl rfl
      exact (plainTrans plain (acceptPlain P _ _ id text token)).mime

def Agrees (P : Platform) (con : Con) (l : Leftover) (ctx : Ctx) (id : UrlId) (text : Bytes) : Prop :=
  ∀ type,responseType text = some type → con.postFix = l.postFix ∨ P.mimeOf type = (ctx.urls id).mimePostfix

theorem markedSame {type : Bytes} (same : P.mimeOf type = (ctx.urls id).mimePostfix) (postFix : Bool) :
    typeMarked P postFix ctx id type = ctx := by
  unfold typeMarked
  split
  · unfold Ctx.modify
    rw [same,Function.update_eq_self]
  · rfl

theorem headerFollows (P : Platform) (ctx : Ctx) (id : UrlId) (token : Nat)
    (header : l.responseHeaderLen = con.responseHeaderLen) (agrees : Agrees P con l ctx id (cstr con.resBuf)) :
    Follows (responseHeader P con ctx id token) (responseHeader P (con.holding l) ctx id token) l := by
  cases known : responseType (cstr con.resBuf) with
  | none =>
    rw [headerRefused known,@headerRefused _ (con.holding l) _ _ _ known]
    exact errorFollows P con ctx token l
  | some type =>
    rw [headerTyped known,@headerTyped _ (con.holding l) _ _ _ _ known]
    rcases agrees type known with flag | suffix
    · have marked : (con.holding l).postFix = con.postFix := flag.symm
      rw [marked]
      exact typedFollows P _ id _ token header
    · rw [markedSame suffix,markedSame suffix]
      exact typedFollows P ctx id _ token header

theorem headerParts (token : Nat) (parts : ¬Agrees P con l ctx id (cstr con.resBuf)) :
    (responseHeader P con ctx id token).ctx ≠ (responseHeader P (con.holding l) ctx id token).ctx := by
  intro same
  refine parts fun type known => ?_
  rw [headerTyped known,@headerTyped _ (con.holding l) _ _ _ _ known] at same
  have mime := congrArg (fun ctx : Ctx => (ctx.urls id).mimePostfix) same
  rw [typedMime,typedMime,show (con.holding l).postFix = l.postFix from rfl] at mime
  unfold typeMarked at mime
  cases flag : con.postFix with
  | true =>
    cases flag' : l.postFix with
    | true => exact Or.inl rfl
    | false =>
      rw [flag,flag',if_pos rfl,if_neg Bool.false_ne_true,modifySelf] at mime
      exact Or.inr mime
  | false =>
    cases flag' : l.postFix with
    | true =>
      rw [flag,flag',if_pos rfl,if_neg Bool.false_ne_true,modifySelf] at mime
      exact Or.inr mime.symm
    | false => exact Or.inl rfl

theorem repliedHolding (con : Con) (arrived : List EfBuf) (l : Leftover) :
    responseBuf (con.holding l) arrived = responseBuf con arrived ∧
    ∃ n,∀ state,(con.holding l).replied arrived state = (con.replied arrived state).holding { l with reqDataLen := n } := by
  have begin_ : (con.holding l).beginResponse =
      con.beginResponse.holding { l with reqDataLen := (con.holding l).beginResponse.reqDataLen } := by
    unfold Con.beginResponse Con.holding
    dsimp only
    split <;> rfl
  have buf : responseBuf (con.holding l) arrived = responseBuf con arrived := by
    unfold responseBuf
    rw [begin_]
    rfl
  refine ⟨buf,(con.holding l).beginResponse.reqDataLen,fun state => ?_⟩
  unfold Con.replied
  rw [buf,begin_]
  rfl

theorem beginPostFix (con : Con) : con.beginResponse.postFix = con.postFix := by
  unfold Con.beginResponse
  split <;> rfl

theorem initFollows (P : Platform) (con : Con) (ctx : Ctx) (id : UrlId) (arrived : List EfBuf) (token : Nat) (l : Leftover)
    (starts : con.resState = .init ∨ con.resState = .initData) :
    ((∀ text,responseText con arrived = some text → Agrees P con l ctx id text) →
      Follows (responseInit P con ctx id arrived token) (responseInit P (con.holding l) ctx id arrived token) l) ∧
    ((¬∀ text,responseText con arrived = some text → Agrees P con l ctx id text) →
      (responseInit P con ctx id arrived token).ctx ≠ (responseInit P (con.holding l) ctx id arrived token).ctx) := by
  obtain ⟨buf,n,same⟩ := repliedHolding con arrived l
  rw [responseTextInit starts]
  cases found : strstr (responseBuf con arrived) httpEnd with
  | none =>
    refine ⟨fun _ => ?_,fun parts => (parts fun _ => nofun).elim⟩
    rcases Nat.lt_or_ge (responseBuf con arrived).length (httpSpResHeadLenMax - 1) with short | long
    · rw [responsePart found short,responsePart (buf ▸ found) (buf ▸ short),same]
      exact ⟨_,rfl,rfl,nofun⟩
    · rw [responseLong found long,responseLong (buf ▸ found) (buf ▸ long),same]
      exact ⟨{ l with reqDataLen := n },rfl,rfl,nofun⟩
  | some k =>
    rw [responseWhole found,responseWhole (buf ▸ found)]
    have framed : (con.holding l).framed arrived k =
        (con.framed arrived k).holding { l with reqDataLen := n,responseHeaderLen := k + httpEnd.length } := by
      unfold Con.framed
      rw [same]
      rfl
    have agrees : Agrees P con l ctx id (cstr (responseBuf con arrived)) ↔
        Agrees P (con.framed arrived k) { l with reqDataLen := n,responseHeaderLen := k + httpEnd.length } ctx id
          (cstr (con.framed arrived k).resBuf) := by
      unfold Agrees
      rw [show (con.framed arrived k).postFix = con.postFix from beginPostFix con]
      exact Iff.rfl
    rw [framed]
    refine ⟨fun all => ?_,fun parts => headerParts token fun all => parts fun text some_ => ?_⟩
    · obtain ⟨l',alike,post,page⟩ := headerFollows P ctx id token rfl (agrees.mp (all _ (if_pos rfl)))
      exact ⟨l',alike,post,page⟩
    · cases Option.some.inj ((if_pos rfl).symm.trans some_)
      exact agrees.mpr all

theorem statesFollows (P : Platform) (con : Con) (ctx : Ctx) (id : UrlId) (arrived : List EfBuf) (token : Nat)
    (l : Leftover) (page : con.resState = .dataLine → PageSame con l)
    (head : con.resState = .requestHeader → l.responseHeaderLen = con.responseHeaderLen) :
    ((∀ text,responseText con arrived = some text → Agrees P con l ctx id text) →
      Follows (responseStates P con ctx id arrived token) (responseStates P (con.holding l) ctx id arrived token) l) ∧
    ((¬∀ text,responseText con arrived = some text → Agrees P con l ctx id text) →
      (responseStates P con ctx id arrived token).ctx ≠ (responseStates P (con.holding l) ctx id arrived token).ctx) := by
  have state_ : (con.holding l).resState = con.resState := rfl
  unfold responseStates
  rw [state_]
  cases state : con.resState with
  | init => exact initFollows P con ctx id arrived token l (Or.inl state)
  | initData => exact initFollows P con ctx id arrived token l (Or.inr state)
  | requestHeader =>
    have text : responseText con arrived = some (cstr con.resBuf) := by
      unfold responseText
      rw [state]
    rw [text]
    refine ⟨fun all => headerFollows P ctx id token (head state) (all _ rfl),fun parts =>
      headerParts token fun all => parts fun text some_ => ?_⟩
    exact Option.some.inj some_ ▸ all
  | dataLine =>
    refine ⟨fun _ => ⟨l,dataHolding P ctx id token (page state),rfl,fun _ => ?_⟩,fun parts => (parts ?_).elim⟩
    · exact pageCarried (page state) (dataLeft P con ctx id token)
    · unfold responseText
      rw [state]
      exact fun _ => nofun
  | requestHeaderError =>
    refine ⟨fun _ => errorFollows P con ctx token l,fun parts => (parts ?_).elim⟩
    unfold responseText
    rw [state]
    exact fun _ => nofun
  | _ =>
    refine ⟨fun _ => ⟨l,rfl,rfl,fun now => nomatch state.symm.trans now⟩,fun parts => (parts ?_).elim⟩
    unfold responseText
    rw [state]
    exact fun _ => nofun

theorem discardHolding (o : Outcome) (l : Leftover) (id : UrlId) :
    responseDiscard (o.holding l) id = (responseDiscard o id).holding l := by
  unfold responseDiscard Outcome.holding
  dsimp only
  split <;> rfl

theorem replyFollows (P : Platform) (con : Con) (ctx : Ctx) (a : Arrival) (l : Leftover)
    (page : con.resState = .dataLine → PageSame con l)
    (head : con.resState = .requestHeader → l.responseHeaderLen = con.responseHeaderLen) :
    ((∀ id text,con.conUrl = some id → con.reads a .server = some text → Agrees P con l ctx id text) →
      Follows (ngxHttpSnoopingResponseParse P con ctx a.pkts a.token)
        (ngxHttpSnoopingResponseParse P (con.holding l) ctx a.pkts a.token) l) ∧
    ((¬∀ id text,con.conUrl = some id → con.reads a .server = some text → Agrees P con l ctx id text) →
      (ngxHttpSnoopingResponseParse P con ctx a.pkts a.token).ctx ≠
        (ngxHttpSnoopingResponseParse P (con.holding l) ctx a.pkts a.token).ctx) := by
  have queue : (con.holding l).enqueueResponse a.pkts = (con.enqueueResponse a.pkts).holding l := rfl
  have url : con.conUrl = (con.enqueueResponse a.pkts).conUrl := rfl
  have agrees (id : UrlId) (text : Bytes) :
      Agrees P con l ctx id text ↔ Agrees P (con.enqueueResponse a.pkts) l ctx id text := Iff.rfl
  replace page : (con.enqueueResponse a.pkts).resState = .dataLine → PageSame (con.enqueueResponse a.pkts) l :=
    fun now => ⟨(page now).coded,(page now).header,(page now).length⟩
  replace head : (con.enqueueResponse a.pkts).resState = .requestHeader →
    l.responseHeaderLen = (con.enqueueResponse a.pkts).responseHeaderLen := head
  unfold Con.reads ngxHttpSnoopingResponseParse
  rw [queue,url]
  simp only [agrees]
  generalize con.enqueueResponse a.pkts = con at page head ⊢
  have fields : (con.holding l).responsePktChain = con.responsePktChain ∧ (con.holding l).conUrl = con.conUrl ∧
      (con.holding l).reqState = con.reqState := ⟨rfl,rfl,rfl⟩
  rw [fields.1,fields.2.1,fields.2.2]
  by_cases idle : con.responsePktChain.count = 0 ∨ a.token = 0
  · have none_ : con.responsePktChain.count = 0 ∨ a.token = 0 ∨ con.conUrl = none ∨ con.reqState = .requestHeaderError :=
      idle.imp_right Or.inl
    rw [if_pos idle,if_pos idle,if_pos none_]
    exact ⟨fun _ => ⟨l,rfl,rfl,page⟩,fun parts => (parts fun _ _ _ => nofun).elim⟩
  rw [if_neg idle,if_neg idle]
  cases owner : con.conUrl with
  | none => exact ⟨fun _ => ⟨l,rfl,rfl,fun now => ⟨(page now).coded,(page now).header,(page now).length⟩⟩,fun parts => (parts fun _ _ => nofun).elim⟩
  | some id =>
    dsimp only
    by_cases error : con.reqState = .requestHeaderError
    · rw [if_pos error,if_pos error,if_pos (Or.inr (Or.inr (Or.inr error)))]
      exact ⟨fun _ => ⟨l,rfl,rfl,fun now => ⟨(page now).coded,(page now).header,(page now).length⟩⟩,fun parts => (parts fun _ _ _ => nofun).elim⟩
    · have live : ¬(con.responsePktChain.count = 0 ∨ a.token = 0 ∨ some id = none ∨ con.reqState = .requestHeaderError) := by
        rintro (empty | zero | none_ | bad)
        · exact idle (Or.inl empty)
        · exact idle (Or.inr zero)
        · cases none_
        · exact error bad
      rw [if_neg error,if_neg error,if_neg live]
      have exact_ : (∀ id' text,some id = some id' → responseText con a.pkts = some text → Agrees P con l ctx id' text) ↔
          ∀ text,responseText con a.pkts = some text → Agrees P con l ctx id text :=
        ⟨fun all text => all id text rfl,fun all id' text same => Option.some.inj same ▸ all text⟩
      obtain ⟨follows,parts⟩ := statesFollows P con ctx id a.pkts a.token l page head
      rw [exact_,(discardSame _ id).2.1,(discardSame _ id).2.1]
      refine ⟨fun all => ?_,parts⟩
      obtain ⟨l',alike,post,page'⟩ := follows all
      refine ⟨l',?_,post,?_⟩
      · rw [alike,discardHolding]
      · rw [(discardSame _ id).1]
        exact page'

end response

section block
variable {P : Platform} {con : Con} {ctx : Ctx} {l : Leftover} {b b' : Bool}

inductive BlockEvent where
  | data (side : Side) (env : ReplyEnv) (pkts : List EfBuf) (token : Nat)
  | shut (side : Side)
  | other (act : Ctx → Ctx)

-- A block with the table and what its last event gave out; `marked` once a record has set the suffix flag.
structure Block where
  con : Con
  ctx : Ctx
  sent : List EfBuf := []
  reply : Option Bytes := none
  freed : List EfBuf := []
  notify : Bool := false
  marked : Bool := false

def Block.step (P : Platform) (s : Block) : BlockEvent → Option Block
  | .data side env pkts token =>
    let o := ngxHttpSnoopingData P env s.con s.ctx side pkts token
    let marks := match side with
      | .client => requestRecords s.con s.ctx pkts token
      | .server => false
    some ⟨o.con,o.ctx,o.sent,o.reply,o.freed,o.notify,s.marked || marks⟩
  | .shut side =>
    let (con,ctx) := ngxHttpSnoopingShut s.con s.ctx side
    some { con := con,ctx := ctx,marked := s.marked }
  | .other act => some { con := s.con,ctx := act s.ctx,marked := s.marked }

structure Same (s : Block × Block) : Prop where
  ctx : s.2.ctx = s.1.ctx
  sent : s.2.sent = s.1.sent
  reply : s.2.reply = s.1.reply
  freed : s.2.freed = s.1.freed
  notify : s.2.notify = s.1.notify

def Settled (P : Platform) (b b' : Bool) (s : Block) : BlockEvent → Prop
  | .data .server env pkts token =>
    ∀ id text type,s.con.conUrl = some id → s.con.reads ⟨env,s.ctx,pkts,token⟩ .server = some text →
      responseType text = some type → s.marked = true ∨ b = b' ∨ P.mimeOf type = (s.ctx.urls id).mimePostfix
  | _ => True

structure Twins (b b' : Bool) (s : Block × Block) (l : Leftover) : Prop where
  con : s.2.con = s.1.con.holding l
  ctx : s.2.ctx = s.1.ctx
  marked : s.2.marked = s.1.marked
  post : s.1.marked = true ∧ l.postFix = s.1.con.postFix ∨
    s.1.marked = false ∧ s.1.con.postFix = b ∧ l.postFix = b'
  page : s.1.con.resState = .dataLine → PageSame s.1.con l
  calm : s.1.con.resState ≠ .requestHeader

theorem finishResState (P : Platform) (o : Outcome) (token : Nat) :
    (requestFinish P o token).con.resState = o.con.resState := by
  unfold requestFinish requestForward
  cases o.con.reqState <;> rfl

theorem headerResState (P : Platform) (env : ReplyEnv) (con : Con) (ctx : Ctx) (token : Nat) :
    (requestHeader P env con ctx token).con.resState = con.resState := by
  cases known : requestHead (cstr con.reqBuf) with
  | none =>
    rw [headerBad known,finishResState]
    rfl
  | some head =>
    by_cases get : head.method = .get
    · rw [headerRecorded known get]
      have answered := answerCases P env (urlRecord con.headed ctx head.serverName head.resUrl).1
        (urlRecord con.headed ctx head.serverName head.resUrl).2 head.resUrl
      generalize requestAnswer P env _ _ head.resUrl = o at answered ⊢
      refine (finishResState P { o with con := { o.con with reqState := .done } } token).trans ?_
      cases answered <;> rfl
    · rw [headerBodied known get,finishResState]
      unfold Con.bodied
      cases requestLength head.rest <;> rfl

theorem requestResState (P : Platform) (env : ReplyEnv) (con : Con) (ctx : Ctx) (arrived : List EfBuf) (token : Nat) :
    (ngxHttpSnoopingRequestParse P env con ctx arrived token).con.resState = con.resState ∨
    (ngxHttpSnoopingRequestParse P env con ctx arrived token).con.resState = .init := by
  have begin_ : (con.enqueue arrived).begin.resState = con.resState ∨ (con.enqueue arrived).begin.resState = .init := by
    unfold Con.begin
    split
    · exact Or.inr rfl
    · exact Or.inl rfl
  have requested := requestCases P env con ctx arrived token
  generalize ngxHttpSnoopingRequestParse P env con ctx arrived token = o at requested ⊢
  cases requested with
  | wait => exact Or.inl rfl
  | part => exact begin_
  | long => exact finishResState P _ token ▸ begin_
  | head =>
    rw [headerResState]
    exact begin_
  | again => exact Or.inl (headerResState P env _ ctx token)
  | final => exact Or.inl (finishResState P _ token)
  | dead => exact Or.inl rfl

theorem recordsHolding (con : Con) (ctx : Ctx) (arrived : List EfBuf) (token : Nat) (l : Leftover) :
    requestRecords (con.holding l) ctx arrived token = requestRecords con ctx arrived token := by
  have queue : (con.holding l).enqueue arrived = (con.enqueue arrived).holding l := rfl
  have text : headerText ((con.enqueue arrived).holding l) arrived = headerText (con.enqueue arrived) arrived := by
    obtain ⟨buf,_⟩ := bufferedHolding (con.enqueue arrived) arrived .init l
    have state : ((con.enqueue arrived).holding l).reqState = (con.enqueue arrived).reqState := rfl
    unfold headerText
    rw [buf,state]
    rfl
  unfold requestRecords
  rw [queue,text]
  rfl

theorem clientTwins {s t : Block × Block} {env : ReplyEnv} {pkts : List EfBuf} {token : Nat} (twins : Twins b b' s l)
    (next : both (Block.step P) s (.data .client env pkts token) = some t) : Same t ∧ ∃ l',Twins b b' t l' := by
  obtain ⟨⟨con,_,_,_,_,_,_⟩,_,ctx,_,_,_,_,mark⟩ := s
  obtain ⟨t,t'⟩ := t
  obtain ⟨alike,table,marked,post,page,calm⟩ := twins
  obtain ⟨first,second⟩ := bothSome next
  dsimp only at alike table marked
  subst alike table marked
  obtain ⟨n,same⟩ := requestHolding P env con ctx pkts token con.left
  obtain ⟨n',same'⟩ := requestHolding P env con ctx pkts token l
  have left : (ngxHttpSnoopingRequestParse P env con ctx pkts token).con.left =
      Leftover.marked { con.left with reqDataLen := n } (requestRecords con ctx pkts token)
        (ngxHttpSnoopingRequestParse P env con ctx pkts token).con.postFix :=
    congrArg (fun o : Outcome => o.con.left) same
  have state := requestResState P env con ctx pkts token
  unfold Block.step ngxHttpSnoopingData at first second
  dsimp only at first second
  rw [same',recordsHolding] at second
  generalize ngxHttpSnoopingRequestParse P env con ctx pkts token = o at *
  generalize requestRecords con ctx pkts token = rec at *
  cases Option.some.inj first
  cases Option.some.inj second
  have still (same : PageSame con l) :
      PageSame o.con (Leftover.marked { l with reqDataLen := n' } rec o.con.postFix) := by
    have coded : o.con.transEncodingType = con.transEncodingType := congrArg Leftover.transEncodingType left
    exact ⟨same.coded.trans coded.symm,same.header.trans (congrArg Leftover.responseHeaderLen left).symm,fun plain =>
      (same.length (coded.symm.trans plain)).trans (congrArg Leftover.dataLen left).symm⟩
  refine ⟨⟨rfl,rfl,rfl,rfl,rfl⟩,Leftover.marked { l with reqDataLen := n' } rec o.con.postFix,rfl,rfl,rfl,?_,?_,?_⟩
  · have flag : o.con.postFix = _ := congrArg Leftover.postFix left
    cases rec with
    | true => exact Or.inl ⟨Bool.or_true mark,rfl⟩
    | false =>
      replace flag : o.con.postFix = con.postFix := flag
      dsimp only
      rw [Bool.or_false,flag]
      exact post
  · intro now
    rcases state with same | reset
    · exact still (page (same.symm.trans now))
    · cases reset.symm.trans now
  · intro now
    rcases state with same | reset
    · exact calm (same.symm.trans now)
    · cases reset.symm.trans now

theorem settledAgrees {s : Block × Block} {env : ReplyEnv} {pkts : List EfBuf} {token : Nat} (twins : Twins b b' s l) :
    Settled P b b' s.1 (.data .server env pkts token) ↔
      ∀ id text,s.1.con.conUrl = some id → s.1.con.reads ⟨env,s.1.ctx,pkts,token⟩ .server = some text →
        Agrees P s.1.con l s.1.ctx id text := by
  have flags : s.1.marked = true ∨ b = b' ↔ s.1.con.postFix = l.postFix := by
    rcases twins.post with ⟨marked,same⟩ | ⟨unmarked,flag,flag'⟩
    · exact iff_of_true (Or.inl marked) same.symm
    · rw [flag,flag',unmarked]
      exact ⟨fun or => or.resolve_left Bool.false_ne_true,Or.inr⟩
  unfold Settled Agrees
  simp only [← flags,or_assoc]
  exact ⟨fun all id text owner read type known => all id text type owner read known,
    fun all id text type owner read known => all id text owner read type known⟩

theorem settledCalm {state : SpState} (settled : state.settled = true) : state ≠ .requestHeader := by
  rintro rfl
  cases settled

theorem replyCalm (P : Platform) (ctx : Ctx) (arrived : List EfBuf) (token : Nat)
    (calm : con.resState ≠ .requestHeader) :
    (ngxHttpSnoopingResponseParse P con ctx arrived token).con.resState ≠ .requestHeader := by
  have calm' : (con.enqueueResponse arrived).resState ≠ .requestHeader := calm
  unfold ngxHttpSnoopingResponseParse
  generalize con.enqueueResponse arrived = con at calm' ⊢
  dsimp only
  split
  · exact calm'
  split
  · exact calm'
  rename_i id _
  split
  · exact calm'
  rw [(discardSame _ id).1]
  have begins : (responseInit P con ctx id arrived token).con.resState ≠ .requestHeader := by
    cases found : strstr (responseBuf con arrived) httpEnd with
    | none =>
      rcases Nat.lt_or_ge (responseBuf con arrived).length (httpSpResHeadLenMax - 1) with short | long
      · rw [responsePart found short]
        exact nofun
      · rw [responseLong found long]
        exact nofun
    | some n =>
      rw [responseWhole found]
      exact settledCalm (headerSettles P _ ctx id token).settled
  unfold responseStates
  cases state : con.resState with
  | init => exact begins
  | initData => exact begins
  | requestHeader => exact (calm' state).elim
  | dataLine => exact settledCalm (dataCarries P con ctx id token (state ▸ rfl)).2
  | requestHeaderError => exact nofun
  | _ => exact fun now => nomatch state.symm.trans now

theorem replyPostFix (P : Platform) (con : Con) (ctx : Ctx) (a : Arrival) :
    (ngxHttpSnoopingResponseParse P con ctx a.pkts a.token).con.postFix = con.postFix := by
  have agrees (id : UrlId) (text : Bytes) : Agrees P con con.left ctx id text := fun _ _ => Or.inl rfl
  obtain ⟨l,same,flag,_⟩ := (replyFollows P con ctx a con.left (fun _ => ⟨rfl,rfl,fun _ => rfl⟩) (fun _ => rfl)).1
    fun id text _ _ => agrees id text
  exact (congrArg (fun o : Outcome => o.con.postFix) same).trans flag

theorem serverTwins {s t : Block × Block} {env : ReplyEnv} {pkts : List EfBuf} {token : Nat} (twins : Twins b b' s l)
    (next : both (Block.step P) s (.data .server env pkts token) = some t) :
    (Settled P b b' s.1 (.data .server env pkts token) → Same t ∧ ∃ l',Twins b b' t l') ∧
    (¬Settled P b b' s.1 (.data .server env pkts token) → t.2.ctx ≠ t.1.ctx) := by
  rw [settledAgrees twins]
  obtain ⟨⟨con,_,_,_,_,_,_⟩,_,ctx,_,_,_,_,mark⟩ := s
  obtain ⟨t,t'⟩ := t
  obtain ⟨alike,table,marked,post,page,calm⟩ := twins
  obtain ⟨first,second⟩ := bothSome next
  dsimp only at alike table marked post page calm
  subst alike table marked
  obtain ⟨follows,parts⟩ := replyFollows P con ctx ⟨env,ctx,pkts,token⟩ l page fun now => (calm now).elim
  have flag := replyPostFix P con ctx ⟨env,ctx,pkts,token⟩
  have calm' := replyCalm P ctx pkts token calm
  unfold Block.step ngxHttpSnoopingData at first second
  dsimp only at first second follows parts flag
  generalize ngxHttpSnoopingResponseParse P con ctx pkts token = o at *
  generalize ngxHttpSnoopingResponseParse P (con.holding l) ctx pkts token = o' at *
  cases Option.some.inj first
  cases Option.some.inj second
  refine ⟨fun all => ?_,fun apart => (parts apart).symm⟩
  obtain ⟨l',same,suffix,carries⟩ := follows all
  subst same
  refine ⟨⟨rfl,rfl,rfl,rfl,rfl⟩,l',rfl,rfl,rfl,?_,carries,calm'⟩
  dsimp only
  rw [Bool.or_false,suffix,flag]
  exact post

theorem shutHolding (con : Con) (ctx : Ctx) (side : Side) (l : Leftover) :
    ngxHttpSnoopingShut (con.holding l) ctx side =
      ((ngxHttpSnoopingShut con ctx side).1.holding l,(ngxHttpSnoopingShut con ctx side).2) ∧
    (ngxHttpSnoopingShut con ctx side).1.left = con.left ∧
    (ngxHttpSnoopingShut con ctx side).1.resState = con.resState := by
  have leave : (con.holding l).leave side = (con.leave side).holding l := by cases side <;> rfl
  have left : (con.leave side).left = con.left ∧ (con.leave side).resState = con.resState := by cases side <;> exact ⟨rfl,rfl⟩
  have app : (con.holding l).app side = con.app side := by cases side <;> rfl
  have pair (con : Con) : (con.holding l).app side.pair = con.app side.pair := by cases side <;> rfl
  unfold ngxHttpSnoopingShut
  rw [app,leave]
  dsimp only
  rw [pair]
  have flags : ((con.leave side).holding l).conFlags = (con.leave side).conFlags := rfl
  rw [flags]
  split
  · split
    · exact ⟨rfl,left⟩
    · exact ⟨rfl,left⟩
  · exact ⟨rfl,rfl,rfl⟩

theorem shutTwins {s t : Block × Block} {side : Side} (twins : Twins b b' s l)
    (next : both (Block.step P) s (.shut side) = some t) : Same t ∧ ∃ l',Twins b b' t l' := by
  obtain ⟨⟨con,_,_,_,_,_,_⟩,_,ctx,_,_,_,_,mark⟩ := s
  obtain ⟨t,t'⟩ := t
  obtain ⟨alike,table,marked,post,page,calm⟩ := twins
  obtain ⟨first,second⟩ := bothSome next
  dsimp only at alike table marked post page calm
  subst alike table marked
  obtain ⟨same,left,state⟩ := shutHolding con ctx side l
  unfold Block.step at first second
  dsimp only at first second
  rw [same] at second
  generalize ngxHttpSnoopingShut con ctx side = r at *
  cases Option.some.inj first
  cases Option.some.inj second
  refine ⟨⟨rfl,rfl,rfl,rfl,rfl⟩,l,rfl,rfl,rfl,?_,fun now => ?_,fun now => calm (state.symm.trans now)⟩
  · dsimp only
    rw [show r.1.postFix = con.postFix from congrArg Leftover.postFix left]
    exact post
  · exact pageCarried (page (state.symm.trans now)) left

theorem blocksStep {s t : Block × Block} {e : BlockEvent} (twins : ∃ l,Twins b b' s l)
    (next : both (Block.step P) s e = some t) : (Same t ↔ Settled P b b' s.1 e) ∧ (Same t → ∃ l,Twins b b' t l) := by
  obtain ⟨l,twins⟩ := twins
  cases e with
  | data side env pkts token =>
    cases side with
    | client =>
      obtain ⟨same,twins'⟩ := clientTwins twins next
      exact ⟨iff_of_true same trivial,fun _ => twins'⟩
    | server =>
      obtain ⟨follows,parts⟩ := serverTwins twins next
      have settled (same : Same t) : Settled P b b' s.1 (.data .server env pkts token) :=
        Classical.byContradiction fun apart => parts apart same.ctx
      exact ⟨⟨settled,fun all => (follows all).1⟩,fun same => (follows (settled same)).2⟩
  | shut side =>
    obtain ⟨same,twins'⟩ := shutTwins twins next
    exact ⟨iff_of_true same trivial,fun _ => twins'⟩
  | other act =>
    obtain ⟨⟨con,_,_,_,_,_,_⟩,_,ctx,_,_,_,_,mark⟩ := s
    obtain ⟨t,t'⟩ := t
    obtain ⟨alike,table,marked,post,page,calm⟩ := twins
    obtain ⟨first,second⟩ := bothSome next
    dsimp only at alike table marked
    subst alike table marked
    cases Option.some.inj first
    cases Option.some.inj second
    exact ⟨iff_of_true ⟨rfl,rfl,rfl,rfl,rfl⟩ trivial,fun _ => ⟨l,rfl,rfl,rfl,post,page,calm⟩⟩

inductive Handout : Con → Con → Prop where
  | created (stale : Con) (clientAddr localServerAddr : Nat) :
    Handout (ngxHttpSnoopingCreate stale clientAddr localServerAddr) (ngxHttpSnoopingCreate {} clientAddr localServerAddr)
  | request (con : Con) (l : Leftover) (page : con.resState ≠ .dataLine) (head : con.resState ≠ .requestHeader) :
    Handout con (con.holding l)

/-- Two connections that differ in what a block keeps do the same, event by event, exactly as long as no content
type is noted by a suffix flag that is left over and differs, unless the entry has that suffix already. -/
theorem leftoverExactly (P : Platform) {con con' : Con} (ctx : Ctx) {events : List BlockEvent}
    (handout : Handout con con') :
    Along (both (Block.step P)) (fun _ _ t => Same t) (⟨con,ctx,[],none,[],false,false⟩,⟨con',ctx,[],none,[],false,false⟩)
      events ↔
    Along (both (Block.step P)) (fun s e _ => Settled P con.postFix con'.postFix s.1 e)
      (⟨con,ctx,[],none,[],false,false⟩,⟨con',ctx,[],none,[],false,false⟩) events := by
  refine alongExact blocksStep ?_
  cases handout with
  | created stale clientAddr localServerAddr =>
    exact ⟨Con.left {},rfl,rfl,rfl,Or.inr ⟨rfl,rfl,rfl⟩,nofun,nofun⟩
  | request con l page head => exact ⟨l,rfl,rfl,rfl,Or.inr ⟨rfl,rfl,rfl⟩,fun now => (page now).elim,head⟩

def pagePlatform : Platform := snoopingPlatform 100 (fun _ => []) fun type =>
  if type = ascii "text/html" then ascii ".html" else []

def homepageEvents : List BlockEvent := [.data .client ⟨1,true⟩ [⟨0,homepageHeader⟩] 1]

theorem homepageSame : Along (both (Block.step pagePlatform)) (fun _ _ t => Same t)
    (⟨ngxHttpSnoopingCreate { postFix := true } 1 2,ngxHttpSnoopingInit 0,[],none,[],false,false⟩,
      ⟨ngxHttpSnoopingCreate {} 1 2,ngxHttpSnoopingInit 0,[],none,[],false,false⟩) homepageEvents :=
  (leftoverExactly pagePlatform (ngxHttpSnoopingInit 0) (.created { postFix := true } 1 2)).mpr
    fun _ _ => ⟨trivial,trivial⟩

def movieAdded : Ctx := ((ngxHttpSpUrlHandle (ascii "a/x.flv") .add).exec (ngxHttpSnoopingInit 0)).2

def movieExchange : List BlockEvent := [
  .data .client ⟨1,true⟩ [⟨0,ascii "GET /x.flv HTTP/1.1" ++ crlf ++ ascii "Host: a" ++ httpEnd⟩] 1,
  .data .server ⟨1,true⟩ [⟨0,ascii "HTTP/1.1 200 OK" ++ crlf ++ ascii "Content-Type: text/html" ++ crlf ++
    ascii "Content-Length: 24" ++ httpEnd⟩] 1]

def homepageServed : Block :=
  (run (Block.step pagePlatform) { con := ngxHttpSnoopingCreate {} 1 2,ctx := movieAdded }
    (homepageEvents ++ [.shut .client,.shut .server])).get (by decide +kernel)

theorem suffixLeftOver : ¬Along (both (Block.step pagePlatform)) (fun _ _ t => Same t)
    (⟨ngxHttpSnoopingCreate homepageServed.con 1 2,homepageServed.ctx,[],none,[],false,false⟩,
      ⟨ngxHttpSnoopingCreate {} 1 2,homepageServed.ctx,[],none,[],false,false⟩) movieExchange := by
  have parts : ¬Along (both (Block.step pagePlatform))
      (fun _ _ t => (t.2.ctx.urls 32767).mimePostfix = (t.1.ctx.urls 32767).mimePostfix)
      (⟨ngxHttpSnoopingCreate homepageServed.con 1 2,homepageServed.ctx,[],none,[],false,false⟩,
        ⟨ngxHttpSnoopingCreate {} 1 2,homepageServed.ctx,[],none,[],false,false⟩) movieExchange := by
    decide
  refine fun same => parts (alongImp (fun same => ?_) same)
  rw [same.ctx]

end block

end MipsElfExec.Snooping
