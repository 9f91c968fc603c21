import MipsElfExec.Snooping.Answer
import MipsElfExec.Snooping.Header

/-! How a header comes in: the packets of a request or a response in any number of data
events, with any token. -/
namespace MipsElfExec.Snooping
open CString Run

section delivery
variable {P : Platform} {con : Con} {header rest : Bytes} {token : Nat}

structure Arrival where
  env : ReplyEnv
  ctx : Ctx
  pkts : List EfBuf
  token : Nat

def delivered (arrivals : List Arrival) : Bytes := arrivals.flatMap fun a => pktBytes a.pkts

structure Reading where
  con : Con
  text : Option Bytes := none

def responseText (con : Con) (arrived : List EfBuf) : Option Bytes :=
  match con.resState with
  | .init | .initData =>
    if (strstr (responseBuf con arrived) httpEnd).isSome then some (cstr (responseBuf con arrived)) else none
  | .requestHeader => some (cstr con.resBuf)
  | _ => none

def Con.reads (con : Con) (a : Arrival) : Side → Option Bytes
  | .client =>
    let con := con.enqueue a.pkts
    if con.requestPktChain.count = 0 ∨ a.token = 0 then none else headerText con a.pkts
  | .server =>
    let con := con.enqueueResponse a.pkts
    if con.responsePktChain.count = 0 ∨ a.token = 0 ∨ con.conUrl = none ∨ con.reqState = .requestHeaderError then none
    else responseText con a.pkts

def Reading.step (P : Platform) (side : Side) (r : Reading) (a : Arrival) : Option Reading :=
  some ⟨(ngxHttpSnoopingData P a.env r.con a.ctx side a.pkts a.token).con,(r.con.reads a side).or r.text⟩

inductive HeaderView where
  | request (method : Method) (resUrl serverName : Option Bytes) (reqDataLen : Int) (reqState : SpState)
  | response (status contentType : Option Bytes) (encodingType : EncodingType) (dataLen responseHeaderLen : Nat)
  deriving DecidableEq, Repr

def Reading.view (r : Reading) : Side → HeaderView
  | .client =>
    .request r.con.reqMethod (r.text.bind requestUrl) (r.text.bind requestServer) r.con.reqDataLen r.con.reqState
  | .server =>
    .response (r.text.bind responseStatus) (r.text.bind responseType) r.con.encodingType r.con.dataLen
      r.con.responseHeaderLen

def requestCareful (con : Con) (a : Arrival) : Bool :=
  con.reqState.settled || (a.token != 0 || (pktBytes a.pkts).isEmpty) &&
    let buf := requestBuf con a.pkts
    match strstr buf httpEnd with
    | none => true
    | some n => requestOwn (buf.take (n + httpEnd.length)) (buf.drop (n + httpEnd.length))

def requestShown (header : Bytes) : HeaderView :=
  .request (requestMethod header).1 (requestUrl header) (requestServer header) (requestEnd header).1 (requestEnd header).2

structure RequestWaits (got : Bytes) (r : Reading) : Prop where
  none_ : r.text = none
  more : strstr got httpEnd = none
  state : r.con.reqState = .init ∧ got = [] ∨ r.con.reqState = .initData ∧ r.con.reqBuf = got ∧ r.con.reqDataLen = 0

structure RequestRead (header : Bytes) (r : Reading) : Prop where
  settled : r.con.reqState.settled = true
  view : r.view .client = requestShown header

theorem finishFields (o : Outcome) : (requestFinish P o token).con.reqMethod = o.con.reqMethod ∧
    (requestFinish P o token).con.reqDataLen = o.con.reqDataLen ∧
    (requestFinish P o token).con.reqState = o.con.reqState := by
  unfold requestFinish requestForward
  cases state : o.con.reqState <;> simp [state]

theorem answerFields (P : Platform) (env : ReplyEnv) (con : Con) (ctx : Ctx) (resUrl : Bytes) :
    (requestAnswer P env con ctx resUrl).con.reqMethod = con.reqMethod ∧
    (requestAnswer P env con ctx resUrl).con.reqDataLen = con.reqDataLen := by
  have answered := answerCases P env con ctx resUrl
  generalize requestAnswer P env con ctx resUrl = o at answered ⊢
  cases answered with
  | passed => exact ⟨rfl,rfl⟩
  | dropped => exact ⟨rfl,rfl⟩

theorem headerResult (P : Platform) (env : ReplyEnv) (con : Con) (ctx : Ctx) (token : Nat) (fresh : con.reqDataLen = 0) :
    (requestHeader P env con ctx token).con.reqMethod = (requestMethod (cstr con.reqBuf)).1 ∧
    (requestHeader P env con ctx token).con.reqDataLen = (requestEnd (cstr con.reqBuf)).1 ∧
    (requestHeader P env con ctx token).con.reqState = (requestEnd (cstr con.reqBuf)).2 := by
  unfold requestEnd
  cases known : requestHead (cstr con.reqBuf) with
  | none =>
    rw [headerBad known]
    exact ⟨(finishFields _).1,(finishFields _).2.1.trans fresh,(finishFields _).2.2⟩
  | some head =>
    dsimp only
    split
    · rename_i get
      have fields := answerFields P env (urlRecord con.headed ctx head.serverName head.resUrl).1
        (urlRecord con.headed ctx head.serverName head.resUrl).2 head.resUrl
      rw [headerRecorded known get]
      generalize requestAnswer P env _ _ head.resUrl = o at fields ⊢
      obtain ⟨method,state⟩ := fields
      have finish := @finishFields P token { o with con := { o.con with reqState := .done } }
      exact ⟨finish.1.trans method,(finish.2.1.trans state).trans fresh,finish.2.2⟩
    · rename_i other
      rw [headerBodied known other]
      unfold Con.bodied
      cases requestLength head.rest with
      | missing => exact ⟨(finishFields _).1,(finishFields _).2.1,(finishFields _).2.2⟩
      | bad => exact ⟨(finishFields _).1,(finishFields _).2.1.trans (congrArg (requestRefused head.rest) fresh),(finishFields _).2.2⟩
      | value n => exact ⟨(finishFields _).1,(finishFields _).2.1,(finishFields _).2.2⟩

theorem endSettled (text : Bytes) : (requestEnd text).2.settled = true := by
  unfold requestEnd
  split
  · rfl
  · split
    · rfl
    · split <;> rfl

theorem unfinished {got : Bytes} (ends : Ends header) (part : got <+: header ++ rest) (more : strstr got httpEnd = none) :
    got.length < header.length := by
  refine Nat.lt_of_not_le fun long => ?_
  obtain ⟨tail,whole⟩ := List.prefix_of_prefix_length_le (List.prefix_append header rest) part long
  have shown := strstrExtends ends tail
  rw [whole,more] at shown
  cases shown

theorem bufShows {limit : Nat} {got bytes more : Bytes} (ends : Ends header) (short : header.length ≤ limit)
    (stream : got ++ bytes ++ more = header ++ rest) :
    match strstr ((got ++ bytes).take limit) httpEnd with
    | none => (got ++ bytes).take limit = got ++ bytes ∧ (got ++ bytes).length < header.length
    | some n => n + httpEnd.length = header.length ∧ ((got ++ bytes).take limit).take (n + httpEnd.length) = header := by
  have part : (got ++ bytes).take limit <+: header ++ rest := by
    rw [← stream]
    exact (List.take_prefix limit _).trans (List.prefix_append _ more)
  split
  · rename_i missing
    have few := unfinished ends part missing
    have all : (got ++ bytes).length < limit := by
      rw [List.length_take] at few
      omega
    rw [List.take_of_length_le all.le] at few ⊢
    exact ⟨rfl,few⟩
  · rename_i n found
    obtain ⟨size,inside⟩ := headerShown ends part found
    rw [size]
    exact ⟨rfl,(List.prefix_iff_eq_take.mp inside).symm⟩

theorem requestBufTake {got : Bytes} {r : Reading} {arrived : List EfBuf} (waits : RequestWaits got r)
    (small : got.length ≤ httpSpReqHeadLenMax - 1) :
    requestBuf r.con arrived = (got ++ pktBytes arrived).take (httpSpReqHeadLenMax - 1) ∧
    r.con.begin.reqDataLen = 0 := by
  have begin_ : r.con.begin.reqBuf = got ∧ r.con.begin.reqDataLen = 0 := by
    unfold Con.begin
    rcases waits.state with ⟨state,none_⟩ | ⟨state,buf,len⟩
    · rw [if_pos state]
      exact ⟨none_.symm,rfl⟩
    · rw [if_neg (by rw [state]; decide)]
      exact ⟨buf,len⟩
  unfold requestBuf
  rw [begin_.1,headerFillTake small]
  exact ⟨rfl,begin_.2⟩

theorem beginEnqueue (con : Con) (arrived : List EfBuf) : (con.enqueue arrived).begin = con.begin.enqueue arrived := by
  unfold Con.begin Con.enqueue
  dsimp only
  split <;> rfl

theorem requestBufEnqueue (con : Con) (arrived : List EfBuf) :
    requestBuf (con.enqueue arrived) arrived = requestBuf con arrived := by
  unfold requestBuf
  rw [beginEnqueue]
  rfl

theorem quietBytes {count : Nat} {a : Arrival} (idle : count + a.pkts.length = 0 ∨ a.token = 0)
    (token : (a.token != 0 || (pktBytes a.pkts).isEmpty) = true) : pktBytes a.pkts = [] := by
  rcases idle with empty | zero
  · have none_ : a.pkts = [] := List.eq_nil_of_length_eq_zero (Nat.eq_zero_of_add_eq_zero_left empty)
    rw [none_]
    rfl
  · simpa [zero] using token

theorem textShown {buf : Bytes} {n : Nat} (ends : Ends header) (shown : buf.take n = header) :
    cstr buf = header ++ cstr (buf.drop n) := by
  conv => lhs; rw [← List.take_append_drop n buf,shown]
  rw [cstrAppend,if_neg (headerNoNul ends)]

theorem requestStep {got more : Bytes} {r r' : Reading} {a : Arrival} (ends : Ends header)
    (short : header.length ≤ httpSpReqHeadLenMax - 1) (waits : RequestWaits got r)
    (careful : requestCareful r.con a = true) (stream : got ++ pktBytes a.pkts ++ more = header ++ rest)
    (next : r.step P .client a = some r') : RequestWaits (got ++ pktBytes a.pkts) r' ∨ RequestRead header r' := by
  cases Option.some.inj next
  have state : r.con.reqState = .init ∨ r.con.reqState = .initData := waits.state.imp And.left And.left
  have few := unfinished ends (by rw [← stream,List.append_assoc]; exact List.prefix_append _ _) waits.more
  obtain ⟨buf,len⟩ := @requestBufTake _ _ a.pkts waits (by omega)
  have shows_ := bufShows ends short stream
  rw [← buf] at shows_
  have unsettled : r.con.reqState.settled = false := by rcases state with state | state <;> rw [state] <;> rfl
  have reads : r.con.reads a .client =
      if (r.con.enqueue a.pkts).requestPktChain.count = 0 ∨ a.token = 0 then none
      else if (strstr (requestBuf r.con a.pkts) httpEnd).isSome then some (cstr (requestBuf r.con a.pkts)) else none := by
    unfold Con.reads
    dsimp only
    rw [@headerTextInit (r.con.enqueue a.pkts) _ state,requestBufEnqueue]
  have event : ngxHttpSnoopingData P a.env r.con a.ctx .client a.pkts a.token = _ := requestBegins state
  unfold requestCareful at careful
  rw [unsettled,Bool.false_or,Bool.and_eq_true] at careful
  obtain ⟨token,own⟩ := careful
  dsimp only at own
  by_cases idle : (r.con.enqueue a.pkts).requestPktChain.count = 0 ∨ a.token = 0
  · have quiet := quietBytes idle token
    rw [if_pos idle] at reads event
    rw [quiet,List.append_nil]
    refine Or.inl ⟨?_,waits.more,?_⟩
    · rw [reads]
      exact waits.none_
    · rw [event]
      exact waits.state
  rw [if_neg idle] at reads event
  have same := requestBufEnqueue r.con a.pkts
  cases found : strstr (requestBuf r.con a.pkts) httpEnd with
  | none =>
    rw [found] at shows_ reads
    obtain ⟨all,size⟩ := shows_
    rw [initPart (same ▸ found) (by rw [same,all]; omega)] at event
    refine Or.inl ⟨?_,?_,Or.inr ⟨?_,?_,?_⟩⟩
    · rw [reads]
      exact waits.none_
    · rw [← all,found]
    · rw [event]
      rfl
    · rw [event]
      exact same.trans all
    · rw [event]
      exact (congrArg Con.reqDataLen (beginEnqueue r.con a.pkts)).trans len
  | some n =>
    rw [found] at shows_ reads own
    obtain ⟨_,shown⟩ := shows_
    replace reads := reads.trans (if_pos rfl)
    rw [initWhole (same ▸ found)] at event
    have clear : ((r.con.enqueue a.pkts).buffered a.pkts .requestHeader).reqDataLen = 0 :=
      (congrArg Con.reqDataLen (beginEnqueue r.con a.pkts)).trans len
    obtain ⟨method,length,final⟩ := headerResult P a.env _ a.ctx a.token clear
    rw [show Con.reqBuf _ = _ from same] at method length final
    have text := textShown ends shown
    have ended := endedEnds ends
    dsimp only at own
    rw [shown,← ownCstr] at own
    obtain ⟨server,end_⟩ := endBeyond ended _ own
    rw [text,end_] at length final
    rw [text,(methodBeyond ended _).1] at method
    rw [← event] at method length final
    refine Or.inr ⟨?_,?_⟩
    · exact final ▸ endSettled header
    · unfold Reading.view requestShown
      dsimp only
      rw [reads,Option.some_or,Option.bind_some,Option.bind_some,text,urlBeyond ended _ own,server,method,
        length,final]

theorem requestReadStep {r r' : Reading} {a : Arrival} (read : RequestRead header r)
    (next : r.step P .client a = some r') : RequestRead header r' := by
  cases Option.some.inj next
  obtain ⟨settled,view⟩ := read
  have reads : r.con.reads a .client = none := by
    unfold Con.reads headerText
    dsimp only [Con.enqueue]
    cases state : r.con.reqState <;> rw [state] at settled <;> first | exact ite_self none | cases settled
  have fields : (ngxHttpSnoopingData P a.env r.con a.ctx .client a.pkts a.token).con.reqMethod = r.con.reqMethod ∧
      (ngxHttpSnoopingData P a.env r.con a.ctx .client a.pkts a.token).con.reqDataLen = r.con.reqDataLen ∧
      (ngxHttpSnoopingData P a.env r.con a.ctx .client a.pkts a.token).con.reqState = r.con.reqState := by
    unfold ngxHttpSnoopingData ngxHttpSnoopingRequestParse
    dsimp only
    split
    · exact ⟨rfl,rfl,rfl⟩
    · have state : (r.con.enqueue a.pkts).reqState = r.con.reqState := rfl
      have finish := @finishFields P a.token { con := r.con.enqueue a.pkts,ctx := a.ctx }
      split <;> rename_i now
      · rw [state.symm.trans now] at settled
        cases settled
      · rw [state.symm.trans now] at settled
        cases settled
      · rw [state.symm.trans now] at settled
        cases settled
      · exact finish
  refine ⟨by rw [fields.2.2]; exact settled,?_⟩
  rw [← view]
  unfold Reading.view
  dsimp only
  rw [reads,fields.1,fields.2.1,fields.2.2]
  rfl

def responseCareful (con : Con) (a : Arrival) : Bool :=
  con.conUrl.isNone || con.resState.settled || (a.token != 0 || (pktBytes a.pkts).isEmpty) &&
    let buf := responseBuf con a.pkts
    match strstr buf httpEnd with
    | none => true
    | some n => responseOwn (buf.take (n + httpEnd.length)) (buf.drop (n + httpEnd.length))

def responseShown (con : Con) (header : Bytes) : HeaderView :=
  if con.conUrl = none then .response none none con.encodingType con.dataLen con.responseHeaderLen
  else .response (responseStatus header) (responseType header) (responseEnd con header).1 (responseEnd con header).2
    header.length

structure Followed (con : Con) : Prop where
  url : con.conUrl ≠ none
  valid : con.reqState ≠ .requestHeaderError

structure ResponseWaits (start : Con) (got : Bytes) (r : Reading) : Prop where
  none_ : r.text = none
  more : strstr got httpEnd = none
  state : r.con.resState = .init ∧ got = [] ∨ r.con.resState = .initData ∧ r.con.resBuf = got
  same : r.con.encodingType = start.encodingType ∧ r.con.dataLen = start.dataLen
  followed : Followed r.con

structure ResponseRead (start : Con) (header : Bytes) (r : Reading) : Prop where
  settled : r.con.resState.settled = true
  followed : Followed r.con
  view : r.view .server = responseShown start header

structure Ignored (start : Con) (r : Reading) : Prop where
  none_ : r.con.conUrl = none
  view : r.view .server = .response none none start.encodingType start.dataLen start.responseHeaderLen

structure Carries (con con' : Con) : Prop where
  encoding : con'.encodingType = con.encodingType
  length : con'.dataLen = con.dataLen
  header : con'.responseHeaderLen = con.responseHeaderLen
  url : con'.conUrl = con.conUrl
  valid : con'.reqState = con.reqState

theorem carriesRefl (con : Con) : Carries con con := ⟨rfl,rfl,rfl,rfl,rfl⟩

theorem endCarries (con : Con) (ctx : Ctx) (id : UrlId) (settled : con.resState.settled = true) :
    Carries con (bodyEnd con ctx id).1 ∧ (bodyEnd con ctx id).1.resState.settled = true := by
  unfold bodyEnd
  split
  · exact ⟨⟨rfl,rfl,rfl,rfl,rfl⟩,rfl⟩
  · exact ⟨carriesRefl con,settled⟩

theorem cacheCarries (con : Con) (ctx : Ctx) (id : UrlId) (chain : Chain) (settled : con.resState.settled = true) :
    Carries con (ngxHttpSnoopingCacheBuf con ctx id chain).1 ∧
    (ngxHttpSnoopingCacheBuf con ctx id chain).1.resState.settled = true := by
  unfold ngxHttpSnoopingCacheBuf
  split
  · exact ⟨carriesRefl con,settled⟩
  · exact endCarries con _ id settled

theorem dataCarries (P : Platform) (con : Con) (ctx : Ctx) (id : UrlId) (token : Nat)
    (settled : con.resState.settled = true) : Carries con (responseData P con ctx id token).con ∧
    (responseData P con ctx id token).con.resState.settled = true := by
  obtain ⟨⟨encoding,length,header,url,valid⟩,final⟩ := cacheCarries (responseForward P con ctx token).con ctx id
    (responseForward P con ctx token).chain settled
  unfold responseData
  dsimp only
  split <;> exact ⟨⟨encoding,length,header,url,valid⟩,final⟩

structure HeaderEnds (con con' : Con) (final : EncodingType × Nat) : Prop where
  settled : con'.resState.settled = true
  url : con'.conUrl = con.conUrl
  valid : con'.reqState = con.reqState
  header : con'.responseHeaderLen = con.responseHeaderLen
  fields : (con'.encodingType,con'.dataLen) = final

theorem acceptEnds (P : Platform) (con : Con) (ctx : Ctx) (id : UrlId) (text : Bytes) (token : Nat) :
    HeaderEnds con (responseAccept P con ctx id text token).con (responseEncoding text,con.dataLen) := by
  unfold responseAccept
  dsimp only
  generalize ctx.modify id _ = ctx
  obtain ⟨⟨encoding,length,header,url,valid⟩,final⟩ := dataCarries P
    { con with encodingType := responseEncoding text,resState := .dataLine } ctx id token rfl
  exact ⟨final,url,valid,header,Prod.ext encoding length⟩

theorem headerSettles (P : Platform) (con : Con) (ctx : Ctx) (id : UrlId) (token : Nat) :
    HeaderEnds con (responseHeader P con ctx id token).con (responseEnd con (cstr con.resBuf)) := by
  unfold responseHeader responseEnd
  dsimp only
  split
  · exact ⟨rfl,rfl,rfl,rfl,rfl⟩
  · cases responseContentType (cstr con.resBuf) with
    | none => exact ⟨rfl,rfl,rfl,rfl,rfl⟩
    | some type =>
      dsimp only
      generalize (if con.postFix = true then _ else _) = ctx
      split
      · obtain ⟨settled,url,valid,header,fields⟩ := acceptEnds P { con with transEncodingType := true } ctx id
          (cstr con.resBuf) token
        exact ⟨settled,url,valid,header,fields⟩
      · cases responseContentLen (cstr con.resBuf) with
        | missing => exact ⟨rfl,rfl,rfl,rfl,rfl⟩
        | bad => exact ⟨rfl,rfl,rfl,rfl,rfl⟩
        | value n =>
          obtain ⟨settled,url,valid,header,fields⟩ := acceptEnds P
            { con with transEncodingType := false,dataLen := n } (ctx.modify id fun e => { e with urlResLen := n }) id
            (cstr con.resBuf) token
          exact ⟨settled,url,valid,header,fields⟩

theorem responseTextInit {arrived : List EfBuf} (starts : con.resState = .init ∨ con.resState = .initData) :
    responseText con arrived =
      if (strstr (responseBuf con arrived) httpEnd).isSome then some (cstr (responseBuf con arrived)) else none := by
  unfold responseText
  rcases starts with state | state <;> rw [state]

theorem responseBegins {ctx : Ctx} {id : UrlId} {arrived : List EfBuf} (url : con.conUrl = some id)
    (valid : con.reqState ≠ .requestHeaderError) (starts : con.resState = .init ∨ con.resState = .initData) :
    (ngxHttpSnoopingResponseParse P con ctx arrived token).con =
      if (con.enqueueResponse arrived).responsePktChain.count = 0 ∨ token = 0 then con.enqueueResponse arrived
      else (responseInit P (con.enqueueResponse arrived) ctx id arrived token).con := by
  have url' : (con.enqueueResponse arrived).conUrl = some id := url
  replace valid : (con.enqueueResponse arrived).reqState ≠ .requestHeaderError := valid
  unfold ngxHttpSnoopingResponseParse
  dsimp only
  split
  · rfl
  · rw [url']
    dsimp only
    rw [(discardSame _ id).1]
    unfold responseStates
    have state : (con.enqueueResponse arrived).resState = con.resState := rfl
    rw [state]
    rcases starts with state | state <;> rw [state]

theorem beginEnqueueResponse (con : Con) (arrived : List EfBuf) :
    (con.enqueueResponse arrived).beginResponse = con.beginResponse.enqueueResponse arrived := by
  unfold Con.beginResponse Con.enqueueResponse
  dsimp only
  split <;> rfl

theorem responseBufEnqueue (con : Con) (arrived : List EfBuf) :
    responseBuf (con.enqueueResponse arrived) arrived = responseBuf con arrived := by
  unfold responseBuf
  rw [beginEnqueueResponse]
  rfl

theorem responseBufTake {start : Con} {got : Bytes} {r : Reading} {arrived : List EfBuf}
    (waits : ResponseWaits start got r) (small : got.length ≤ httpSpResHeadLenMax - 1) :
    responseBuf r.con arrived = (got ++ pktBytes arrived).take (httpSpResHeadLenMax - 1) := by
  have begin_ : r.con.beginResponse.resBuf = got := by
    unfold Con.beginResponse
    rcases waits.state with ⟨state,none_⟩ | ⟨state,buf⟩
    · rw [if_pos state]
      exact none_.symm
    · rw [if_neg (by rw [state]; decide)]
      exact buf
  unfold responseBuf
  rw [begin_,headerFillTake small]

theorem beginCarries (con : Con) : con.beginResponse.encodingType = con.encodingType ∧
    con.beginResponse.dataLen = con.dataLen ∧ con.beginResponse.conUrl = con.conUrl ∧
    (con.reqState ≠ .requestHeaderError → con.beginResponse.reqState ≠ .requestHeaderError) := by
  unfold Con.beginResponse
  split
  · exact ⟨rfl,rfl,rfl,fun _ => nofun⟩
  · exact ⟨rfl,rfl,rfl,id⟩

theorem responseStep {start : Con} {got more : Bytes} {r r' : Reading} {a : Arrival} (url : start.conUrl ≠ none)
    (ends : Ends header) (short : header.length ≤ httpSpResHeadLenMax - 1) (waits : ResponseWaits start got r)
    (careful : responseCareful r.con a = true) (stream : got ++ pktBytes a.pkts ++ more = header ++ rest)
    (next : r.step P .server a = some r') :
    ResponseWaits start (got ++ pktBytes a.pkts) r' ∨ ResponseRead start header r' := by
  cases Option.some.inj next
  obtain ⟨id,owner⟩ := Option.ne_none_iff_exists'.mp waits.followed.url
  have state : r.con.resState = .init ∨ r.con.resState = .initData := waits.state.imp And.left And.left
  have few := unfinished ends (by rw [← stream,List.append_assoc]; exact List.prefix_append _ _) waits.more
  have buf := @responseBufTake _ _ _ a.pkts waits (by omega)
  have shows_ := bufShows ends short stream
  rw [← buf] at shows_
  have unsettled : r.con.resState.settled = false := by rcases state with state | state <;> rw [state] <;> rfl
  have reads : r.con.reads a .server =
      if (r.con.enqueueResponse a.pkts).responsePktChain.count = 0 ∨ a.token = 0 then none
      else if (strstr (responseBuf r.con a.pkts) httpEnd).isSome then some (cstr (responseBuf r.con a.pkts)) else none := by
    have text := @responseTextInit (r.con.enqueueResponse a.pkts) a.pkts state
    rw [responseBufEnqueue] at text
    unfold Con.reads
    dsimp only
    rw [text]
    by_cases idle : (r.con.enqueueResponse a.pkts).responsePktChain.count = 0 ∨ a.token = 0
    · rw [if_pos idle,if_pos (idle.imp_right Or.inl)]
    · rw [if_neg idle,if_neg]
      rintro (empty | zero | none_ | error)
      · exact idle (Or.inl empty)
      · exact idle (Or.inr zero)
      · exact waits.followed.url none_
      · exact waits.followed.valid error
  have event : (ngxHttpSnoopingData P a.env r.con a.ctx .server a.pkts a.token).con = _ :=
    responseBegins owner waits.followed.valid state
  have open_ : r.con.conUrl.isNone = false := by rw [owner]; rfl
  unfold responseCareful at careful
  rw [open_,unsettled,Bool.false_or,Bool.false_or,Bool.and_eq_true] at careful
  obtain ⟨token,own⟩ := careful
  dsimp only at own
  by_cases idle : (r.con.enqueueResponse a.pkts).responsePktChain.count = 0 ∨ a.token = 0
  · have quiet := quietBytes idle token
    rw [if_pos idle] at reads event
    rw [quiet,List.append_nil]
    refine Or.inl ⟨?_,waits.more,?_,?_,?_⟩
    · rw [reads]
      exact waits.none_
    · rw [event]
      exact waits.state
    · rw [event]
      exact waits.same
    · rw [event]
      exact ⟨waits.followed.url,waits.followed.valid⟩
  rw [if_neg idle] at reads event
  have same := responseBufEnqueue r.con a.pkts
  obtain ⟨encoding,length,url',valid⟩ := beginCarries (r.con.enqueueResponse a.pkts)
  cases found : strstr (responseBuf r.con a.pkts) httpEnd with
  | none =>
    rw [found] at shows_ reads
    obtain ⟨all,size⟩ := shows_
    rw [responsePart (same ▸ found) (by rw [same,all]; omega)] at event
    refine Or.inl ⟨?_,?_,Or.inr ⟨?_,?_⟩,?_,?_⟩
    · rw [reads]
      exact waits.none_
    · rw [← all,found]
    · rw [event]
      rfl
    · rw [event]
      exact same.trans all
    · rw [event]
      exact ⟨encoding.trans waits.same.1,length.trans waits.same.2⟩
    · rw [event]
      exact ⟨fun none_ => waits.followed.url (url'.symm.trans none_),valid waits.followed.valid⟩
  | some n =>
    rw [found] at shows_ reads own
    obtain ⟨size,shown⟩ := shows_
    replace reads := reads.trans (if_pos rfl)
    rw [responseWhole (same ▸ found)] at event
    generalize paged : (r.con.enqueueResponse a.pkts).framed a.pkts n = page at event
    have pageBuf : page.resBuf = responseBuf (r.con.enqueueResponse a.pkts) a.pkts := paged ▸ rfl
    have pageLen : page.responseHeaderLen = n + httpEnd.length := paged ▸ rfl
    have pageEncoding : page.encodingType = (r.con.enqueueResponse a.pkts).beginResponse.encodingType := paged ▸ rfl
    have pageData : page.dataLen = (r.con.enqueueResponse a.pkts).beginResponse.dataLen := paged ▸ rfl
    have pageUrl : page.conUrl = (r.con.enqueueResponse a.pkts).beginResponse.conUrl := paged ▸ rfl
    have pageState : page.reqState = (r.con.enqueueResponse a.pkts).beginResponse.reqState := paged ▸ rfl
    obtain ⟨settled,urlEnd,stateEnd,lenEnd,fields⟩ := headerSettles P page a.ctx id a.token
    have text := textShown ends shown
    have ended := endedEnds ends
    have before : responseEnd page header = responseEnd start header := by
      unfold responseEnd
      rw [pageEncoding.trans (encoding.trans waits.same.1),pageData.trans (length.trans waits.same.2)]
    dsimp only at own
    rw [shown,← responseOwnCstr] at own
    obtain ⟨status,type,end_⟩ := responseBeyond ended _ own page
    rw [pageBuf,same,text,end_,before] at fields
    rw [← event] at settled urlEnd stateEnd lenEnd fields
    refine Or.inr ⟨settled,⟨?_,?_⟩,?_⟩
    · exact fun none_ => waits.followed.url (url'.symm.trans (pageUrl.symm.trans (urlEnd.symm.trans none_)))
    · exact fun error => valid waits.followed.valid (pageState.symm.trans (stateEnd.symm.trans error))
    · unfold Reading.view responseShown
      dsimp only
      rw [reads,Option.some_or,Option.bind_some,Option.bind_some,text,status,type,if_neg url,← fields,
        lenEnd.trans (pageLen.trans size)]

theorem statesCarries (P : Platform) (con : Con) (ctx : Ctx) (id : UrlId) (arrived : List EfBuf) (token : Nat)
    (settled : con.resState.settled = true) : Carries con (responseStates P con ctx id arrived token).con ∧
    (responseStates P con ctx id arrived token).con.resState.settled = true := by
  unfold responseStates
  cases state : con.resState with
  | done => exact ⟨carriesRefl con,settled⟩
  | dataLine => exact dataCarries P con ctx id token settled
  | requestHeaderError => exact ⟨⟨rfl,rfl,rfl,rfl,rfl⟩,rfl⟩
  | _ =>
    rw [state] at settled
    cases settled

theorem responseReadStep {start : Con} {r r' : Reading} {a : Arrival} (read : ResponseRead start header r)
    (next : r.step P .server a = some r') : ResponseRead start header r' := by
  cases Option.some.inj next
  obtain ⟨settled,followed,view⟩ := read
  obtain ⟨id,owner⟩ := Option.ne_none_iff_exists'.mp followed.url
  have reads : r.con.reads a .server = none := by
    unfold Con.reads responseText
    dsimp only [Con.enqueueResponse]
    cases state : r.con.resState <;> rw [state] at settled <;> first | exact ite_self none | cases settled
  obtain ⟨carries,final⟩ : Carries r.con (ngxHttpSnoopingData P a.env r.con a.ctx .server a.pkts a.token).con ∧
      (ngxHttpSnoopingData P a.env r.con a.ctx .server a.pkts a.token).con.resState.settled = true := by
    unfold ngxHttpSnoopingData ngxHttpSnoopingResponseParse
    dsimp only
    split
    · exact ⟨⟨rfl,rfl,rfl,rfl,rfl⟩,settled⟩
    · have url : (r.con.enqueueResponse a.pkts).conUrl = some id := owner
      rw [url]
      dsimp only
      rw [if_neg (show (r.con.enqueueResponse a.pkts).reqState ≠ .requestHeaderError from followed.valid),
        (discardSame _ id).1]
      obtain ⟨⟨encoding,length,header,url,valid⟩,final⟩ :=
        statesCarries P (r.con.enqueueResponse a.pkts) a.ctx id a.pkts a.token settled
      exact ⟨⟨encoding,length,header,url,valid⟩,final⟩
  refine ⟨final,⟨carries.url ▸ followed.url,carries.valid ▸ followed.valid⟩,?_⟩
  rw [← view]
  unfold Reading.view
  dsimp only
  rw [reads,carries.encoding,carries.length,carries.header]
  rfl

theorem ignoredStep {start : Con} {r r' : Reading} {a : Arrival} (ignored : Ignored start r)
    (next : r.step P .server a = some r') : Ignored start r' := by
  cases Option.some.inj next
  obtain ⟨none_,view⟩ := ignored
  have reads : r.con.reads a .server = none := if_pos (Or.inr (Or.inr (Or.inl none_)))
  have event : (ngxHttpSnoopingData P a.env r.con a.ctx .server a.pkts a.token).con.conUrl = none ∧
      (ngxHttpSnoopingData P a.env r.con a.ctx .server a.pkts a.token).con.encodingType = r.con.encodingType ∧
      (ngxHttpSnoopingData P a.env r.con a.ctx .server a.pkts a.token).con.dataLen = r.con.dataLen ∧
      (ngxHttpSnoopingData P a.env r.con a.ctx .server a.pkts a.token).con.responseHeaderLen =
        r.con.responseHeaderLen := by
    unfold ngxHttpSnoopingData ngxHttpSnoopingResponseParse
    dsimp only
    split
    · exact ⟨none_,rfl,rfl,rfl⟩
    · rw [show (r.con.enqueueResponse a.pkts).conUrl = none from none_]
      exact ⟨none_,rfl,rfl,rfl⟩
  refine ⟨event.1,?_⟩
  rw [← view]
  unfold Reading.view
  dsimp only
  rw [reads,event.2.1,event.2.2.1,event.2.2.2]
  rfl

theorem streamReads {side : Side} {careful : Con → Arrival → Bool} {W : Bytes → Reading → Prop} {R : Reading → Prop}
    (ends : Ends header) (more : ∀ {got r},W got r → strstr got httpEnd = none)
    (step : ∀ {got later r r' a},W got r → careful r.con a = true → got ++ pktBytes a.pkts ++ later = header ++ rest →
      r.step P side a = some r' → W (got ++ pktBytes a.pkts) r' ∨ R r')
    (stays : ∀ {r r' a},R r → r.step P side a = some r' → R r') {got : Bytes} {r r' : Reading} {arrivals : List Arrival}
    (start : W got r ∨ R r) (stream : got ++ delivered arrivals = header ++ rest)
    (along : Along (Reading.step P side) (fun r a _ => careful r.con a = true) r arrivals)
    (path : run (Reading.step P side) r arrivals = some r') : R r' := by
  induction arrivals generalizing r got with
  | nil =>
    cases Option.some.inj path
    rcases start with waits | read
    · have few := @unfinished _ rest _ ends (by rw [← stream]; exact List.prefix_append _ _) (more waits)
      have size := congrArg List.length stream
      simp only [delivered,List.flatMap_nil,List.append_nil,List.length_append] at size
      omega
    · exact read
  | cons a arrivals ih =>
    obtain ⟨u,next,later⟩ := Option.bind_eq_some_iff.mp path
    obtain ⟨here,along⟩ := along u next
    have whole : got ++ pktBytes a.pkts ++ delivered arrivals = header ++ rest := by
      rw [← stream,List.append_assoc]
      rfl
    rcases start with waits | read
    · exact ih (step waits here whole next) whole along later
    · exact ih (Or.inr (stays read next)) whole along later

def headerRoom : Side → Nat
  | .client => httpSpReqHeadLenMax - 1
  | .server => httpSpResHeadLenMax - 1

def Con.fresh (con : Con) : Side → Prop
  | .client => con.reqState = .init
  | .server => con.resState = .init ∧ (con.conUrl = none ∨ con.reqState ≠ .requestHeaderError)

def headerShows (con : Con) (header : Bytes) : Side → HeaderView
  | .client => requestShown header
  | .server => responseShown con header

def Con.careful (con : Con) (a : Arrival) : Side → Bool
  | .client => requestCareful con a
  | .server => responseCareful con a

theorem viewShows (P : Platform) {side : Side} {arrivals : List Arrival} {r : Reading} (fresh : con.fresh side)
    (ends : Ends header) (short : header.length ≤ headerRoom side) (stream : delivered arrivals = header ++ rest)
    (along : Along (Reading.step P side) (fun r a _ => r.con.careful a side = true) ⟨con,none⟩ arrivals)
    (path : run (Reading.step P side) ⟨con,none⟩ arrivals = some r) : r.view side = headerShows con header side := by
  have four : strstr [] httpEnd = none := rfl
  cases side with
  | client =>
    have waits : RequestWaits [] ⟨con,none⟩ := ⟨rfl,four,Or.inl ⟨fresh,rfl⟩⟩
    exact (streamReads (W := RequestWaits) (R := RequestRead header) ends RequestWaits.more
      (fun waits here whole next => requestStep ends short waits here whole next) requestReadStep (Or.inl waits) stream
      along path).view
  | server =>
    obtain ⟨state,url⟩ := fresh
    by_cases none_ : con.conUrl = none
    · have ignored : Ignored con ⟨con,none⟩ := ⟨none_,rfl⟩
      have last := runInvariant (P := fun _ _ _ => True) (fun ignored _ next => ignoredStep ignored next) ignored
        (alongTrue _ _) path
      rw [last.view]
      exact (if_pos none_).symm
    · have waits : ResponseWaits con [] ⟨con,none⟩ :=
        ⟨rfl,four,Or.inl ⟨state,rfl⟩,⟨rfl,rfl⟩,⟨none_,url.resolve_left none_⟩⟩
      exact (streamReads (W := ResponseWaits con) (R := ResponseRead con header) ends ResponseWaits.more
        (fun waits here whole next => responseStep none_ ends short waits here whole next) responseReadStep
        (Or.inl waits) stream along path).view

/-- Two deliveries of one stream show the same header as long as the packets of the header come with a
token and what the header lacks does not follow it in the buffer. -/
theorem deliveriesAgree (P : Platform) {side : Side} {con : Con} {header rest : Bytes} {first second : List Arrival}
    {r r' : Reading} (fresh : con.fresh side) (ends : Ends header) (short : header.length ≤ headerRoom side)
    (stream : delivered first = header ++ rest) (same : delivered second = delivered first)
    (along : Along (Reading.step P side) (fun r a _ => r.con.careful a side = true) ⟨con,none⟩ first)
    (along' : Along (Reading.step P side) (fun r a _ => r.con.careful a side = true) ⟨con,none⟩ second)
    (path : run (Reading.step P side) ⟨con,none⟩ first = some r)
    (path' : run (Reading.step P side) ⟨con,none⟩ second = some r') : r.view side = r'.view side := by
  rw [viewShows P fresh ends short stream along path,viewShows P fresh ends short (same.trans stream) along' path']

def homepageHeader : Bytes := ascii "GET / HTTP/1.1" ++ crlf ++ ascii "Host: a" ++ httpEnd

def arrival (token : Nat) (datas : List Bytes) : Arrival :=
  ⟨⟨1,true⟩,ngxHttpSnoopingInit 0,datas.map (⟨0,·⟩),token⟩

def homepageDelivery : List Arrival := [arrival 1 [homepageHeader.take 20],arrival 1 [homepageHeader.drop 20]]

def testPlatform : Platform := snoopingPlatform 100 (fun _ => []) (fun _ => [])

theorem homepageAgrees : ∃ r r',run (Reading.step testPlatform .client) ⟨{},none⟩ [arrival 1 [homepageHeader]] = some r ∧
    run (Reading.step testPlatform .client) ⟨{},none⟩ homepageDelivery = some r' ∧ r.view .client = r'.view .client := by
  have ends : Ends homepageHeader := by
    unfold Ends
    decide
  have stream : delivered [arrival 1 [homepageHeader]] = homepageHeader ++ [] := by decide
  have same : delivered homepageDelivery = delivered [arrival 1 [homepageHeader]] := by decide
  have along : Along (Reading.step testPlatform .client) (fun r a _ => r.con.careful a .client = true) ⟨{},none⟩
      [arrival 1 [homepageHeader]] := by decide
  have along' : Along (Reading.step testPlatform .client) (fun r a _ => r.con.careful a .client = true) ⟨{},none⟩
      homepageDelivery := by decide
  have fresh : Con.fresh {} .client := rfl
  exact ⟨_,_,rfl,rfl,deliveriesAgree testPlatform fresh ends (by decide) stream same along along' rfl rfl⟩

def postHeader : Bytes := ascii "POST / HTTP/1.1" ++ crlf ++ ascii "Host: a" ++ httpEnd
def postBody : Bytes := ascii "Content-Length: 5" ++ crlf
def pageHeader : Bytes :=
  ascii "HTTP/1.1 200 OK" ++ crlf ++ ascii "Content-Type: a" ++ crlf ++ ascii "Content-Length: 24" ++ httpEnd
def pageBody : Bytes := ascii "Content-Encoding: gzip" ++ crlf

def Reading.shows (side : Side) (con : Con) (arrivals : List Arrival) : Option HeaderView :=
  (run (Reading.step testPlatform side) ⟨con,none⟩ arrivals).map (·.view side)

theorem deliveriesDiffer :
    (delivered [arrival 0 [homepageHeader.take 20],arrival 1 [homepageHeader.drop 20]] =
        delivered [arrival 1 [homepageHeader]] ∧
      Reading.shows .client {} [arrival 0 [homepageHeader.take 20],arrival 1 [homepageHeader.drop 20]] ≠
        Reading.shows .client {} [arrival 1 [homepageHeader]]) ∧
    (delivered [arrival 1 [postHeader ++ postBody]] = delivered [arrival 1 [postHeader],arrival 1 [postBody]] ∧
      Reading.shows .client {} [arrival 1 [postHeader ++ postBody]] ≠
        Reading.shows .client {} [arrival 1 [postHeader],arrival 1 [postBody]]) ∧
    (delivered [arrival 1 [pageHeader ++ pageBody]] = delivered [arrival 1 [pageHeader],arrival 1 [pageBody]] ∧
      Reading.shows .server { conUrl := some 0 } [arrival 1 [pageHeader ++ pageBody]] ≠
        Reading.shows .server { conUrl := some 0 } [arrival 1 [pageHeader],arrival 1 [pageBody]]) := by
  decide

end delivery

end MipsElfExec.Snooping
