import MipsElfExec.Snooping.Chain
import MipsElfExec.Snooping.Table

/-! A proxied connection. Packets of either direction queue up behind those that wait
already; the request side recognises a header and may answer it locally, the response
side follows the header and the body for the entry of the request. -/
namespace MipsElfExec.Snooping
open CString MipsElfExec.Ring Section

inductive Method where
  | none | get | post | head | put
  deriving DecidableEq, Repr

inductive SpState where
  | init | initData | requestHeader | requestHeaderData | dataLine | dataLineData | done
  | requestHeaderError | headerError | dataError
  deriving DecidableEq, Repr

-- The header buffers are the bytes before their parse position.
structure Con where
  conFlags : Bool := false
  clientApp : Bool := false
  serverApp : Bool := false
  clientAddr : Nat := 0
  localServerAddr : Nat := 0
  reqMethod : Method := .none
  reqState : SpState := .init
  resState : SpState := .init
  encodingType : EncodingType := .none
  transEncodingType : Bool := false
  postFix : Bool := false
  requestPktChain : Chain := efBufInitChain
  responsePktChain : Chain := efBufInitChain
  reqDataLen : Int := 0
  dataLen : Nat := 0
  responseHeaderLen : Nat := 0
  conUrl : Option UrlId := none
  reqBuf : Bytes := []
  resBuf : Bytes := []
  deriving DecidableEq, Repr

-- What the code is linked with: the split of a chain, the tick rate, sprintf's %a and the
-- suffix ngx_http_url_mime_type finds for a content type.
structure Platform where
  getn : Chain → Nat → Chain × Chain
  hz : Nat
  addrText : Nat → Bytes
  mimeOf : Bytes → Bytes

structure ReplyEnv where
  freeSpace : Nat
  efb : Bool
  deriving DecidableEq, Repr

structure Outcome where
  con : Con
  ctx : Ctx
  chain : Chain := efBufInitChain
  reply : Option Bytes := none
  freed : List EfBuf := []
  notify : Bool := false

def httpSpReqHeadLenMax : Nat := 2560
def httpSpResHeadLenMax : Nat := 1024
def httpSpBufLenMax : Nat := 8180

def httpEnd : Bytes := crlf ++ crlf
def httpHost : Bytes := ascii "Host: "
def httpContentLen : Bytes := ascii "Content-Length: "
def httpContentType : Bytes := ascii "Content-Type: "
def httpTransEncodingTypeChunked : Bytes := ascii "Transfer-Encoding: chunked" ++ crlf
def httpContentEncodingType : Bytes := ascii "Content-Encoding: "
def httpClient403Str : Bytes := ascii "HTTP/1.1 403 Forbidden" ++ crlf ++ ascii "Connection: Keep-Alive" ++ crlf ++ crlf
def httpRedirect302Str : Bytes := ascii "HTTP/1.1 302 Found" ++ crlf
def httpConStr (close : Bool) : Bytes :=
  ascii (if close then "Connection: close" else "Connection: Keep-Alive") ++ crlf

def ngxAtoi (line : Bytes) : Option Nat :=
  if line = [] ∨ line.any (fun b => !isdigit b) then none
  else
    let value := line.foldl (fun value b => word (value * 10 + (b.toNat - 48))) 0
    if 2 ^ 31 ≤ value then none else some value

def headerFill (limit : Nat) : Bytes → List EfBuf → Bytes
  | buf,[] => buf
  | buf,p :: ps =>
    if limit < p.data.length + buf.length then buf ++ p.data.take (limit - buf.length)
    else headerFill limit (buf ++ p.data) ps

inductive LengthField where
  | missing
  | bad
  | value (n : Nat)
  deriving DecidableEq, Repr

section request

structure RequestHead where
  method : Method
  resUrl : Bytes
  serverName : Bytes
  rest : Bytes
  deriving DecidableEq, Repr

def requestMethod (text : Bytes) : Method × Bytes :=
  if (ascii "GET ").isPrefixOf text then (.get,text.drop 4)
  else if (ascii "POST ").isPrefixOf text then (.post,text.drop 5)
  else if (ascii "PUT ").isPrefixOf text then (.put,text.drop 4)
  else if (ascii "HEAD ").isPrefixOf text then (.head,text.drop 5)
  else (.none,text)

def requestHead (text : Bytes) : Option RequestHead :=
  let (method,url) := requestMethod text
  if method = .none then none
  else match strchr url 32 with
  | none => none
  | some n =>
    if httpSpUrlLenMax ≤ n then none
    else match strstr (url.drop (n + 1)) httpHost with
    | none => none
    | some h =>
      let host := (url.drop (n + 1)).drop (h + httpHost.length)
      match strstr host crlf with
      | none => none
      | some e => some ⟨method,url.take n,host.take e,host.drop (e + crlf.length)⟩

def requestLength (rest : Bytes) : LengthField :=
  match strstr rest httpContentLen with
  | none => .missing
  | some n =>
    let digits := ((cstr rest).drop (n + httpContentLen.length)).take 11
    if 13 ∈ digits then
      match ngxAtoi (digits.takeWhile (· ≠ 13)) with
      | some value => .value value
      | none => .bad
    else .bad

-- ngx_atoi leaves -1; without a line end in reach the field stays as it was.
def requestRefused (rest : Bytes) (len : Int) : Int :=
  match strstr rest httpContentLen with
  | none => len
  | some n => if 13 ∈ ((cstr rest).drop (n + httpContentLen.length)).take 11 then -1 else len

def urlKnown (ctx : Ctx) (key : Bytes) : Bool := (ngxHttpSnoopingUrlHashFind ctx key).isSome

def urlRecord (con : Con) (ctx : Ctx) (server res : Bytes) : Con × Ctx :=
  let (spUrl,after) := (ngxHttpSnoopingUrlRecord server res).exec ctx
  let postFix := match recordTarget server res with
    | some (rule,key) =>
      if rule.cacheFlg.actionCacheSp && !urlKnown ctx key && spUrl.isSome then rule.tailXiegan.length == 1
      else con.postFix
    | none => con.postFix
  ({ con with conUrl := spUrl,postFix := postFix },after)

def requestDrop (con : Con) (ctx : Ctx) (reply : Option Bytes) : Outcome :=
  { con := { con with requestPktChain := efBufInitChain },ctx := ctx,reply := reply,
    freed := con.requestPktChain.pkts }

def ngxHttpSnoopingUrlForbidden (env : ReplyEnv) (con : Con) (ctx : Ctx) : Outcome :=
  if env.freeSpace = 0 then requestDrop con ctx none
  else if env.efb = false then { con := con,ctx := ctx }
  else requestDrop con ctx (some httpClient403Str)

def homepageHashKey (addr : Nat) : Nat := addr % 65536 % 1024

def homepageRecent (P : Platform) (ctx : Ctx) (addr : Nat) : Bool :=
  let last := ctx.homepageHash (homepageHashKey addr)
  ctx.jiffies < word (last + 10 * 60 * P.hz) && last != 0

def redirectText (P : Platform) (con : Con) (e : UrlEntry) (resUrl : Bytes) : Bytes :=
  let addr := if e.redirectAddr ≠ 0 then e.redirectAddr else con.localServerAddr
  let path :=
    if e.cacheFlg.homepagePoll then []
    else
      cstr (((e.pcacheRule.map (ngxHttpUrl2localFile e.urlBuf)).getD []) ++ e.mimePostfix) ++
        if e.cacheFlg.redirectPara then resUrl.dropWhile (· ≠ 63) else []
  httpRedirect302Str ++ httpConStr e.cacheFlg.conClose ++ ascii "Location: http://" ++ P.addrText addr ++
    ascii ":8080/" ++ path ++ httpEnd

def ngxHttpSnoopingUrlRedirect (P : Platform) (env : ReplyEnv) (con : Con) (ctx : Ctx) (e : UrlEntry)
    (resUrl : Bytes) : Outcome :=
  if e.cacheFlg.homepagePoll && homepageRecent P ctx con.clientAddr then { con := con,ctx := ctx }
  else if env.freeSpace = 0 then requestDrop con ctx none
  else if env.efb = false then { con := con,ctx := ctx }
  else
    let hash := Function.update ctx.homepageHash (homepageHashKey con.clientAddr) ctx.jiffies
    requestDrop con (if e.cacheFlg.homepagePoll then { ctx with homepageHash := hash } else ctx)
      (some (redirectText P con e resUrl))

def requestAnswer (P : Platform) (env : ReplyEnv) (con : Con) (ctx : Ctx) (resUrl : Bytes) : Outcome :=
  match con.conUrl with
  | none => { con := con,ctx := ctx }
  | some id =>
    let e := ctx.urls id
    if e.cacheFlg.forbiden then ngxHttpSnoopingUrlForbidden env con ctx
    else if e.urlFlags.resWrite ∨ e.cacheFlg.homepagePoll then ngxHttpSnoopingUrlRedirect P env con ctx e resUrl
    else { con := con,ctx := ctx }

def requestForward (P : Platform) (con : Con) (token : Nat) : Con × Chain × Bool :=
  let (dst,src) := P.getn con.requestPktChain token
  ({ con with requestPktChain := src },dst,src.count ≠ 0)

def requestFinish (P : Platform) (o : Outcome) (token : Nat) : Outcome :=
  match o.con.reqState with
  | .done | .dataLine =>
    let (con,chain,notify) := requestForward P o.con token
    { o with con := con,chain := chain,notify := notify }
  | .requestHeaderError =>
    let (con,chain,notify) := requestForward P o.con token
    { o with con := { con with reqBuf := [],conUrl := none },chain := chain,notify := notify }
  | _ => o

def requestHeader (P : Platform) (env : ReplyEnv) (con : Con) (ctx : Ctx) (token : Nat) : Outcome :=
  let text := cstr con.reqBuf
  let con := { con with reqMethod := (requestMethod text).1 }
  match requestHead text with
  | none => requestFinish P { con := { con with reqState := .requestHeaderError },ctx := ctx } token
  | some head =>
    if head.method = .get then
      let (con,ctx) := urlRecord con ctx head.serverName head.resUrl
      let o := requestAnswer P env con ctx head.resUrl
      requestFinish P { o with con := { o.con with reqState := .done } } token
    else match requestLength head.rest with
    | .missing => requestFinish P { con := { con with reqDataLen := 0,reqState := .done },ctx := ctx } token
    | .bad =>
      requestFinish P
        { con := { con with reqDataLen := requestRefused head.rest con.reqDataLen,reqState := .requestHeaderError },ctx := ctx }
        token
    | .value n => requestFinish P { con := { con with reqDataLen := n,reqState := .dataLine },ctx := ctx } token

def Con.begin (con : Con) : Con :=
  if con.reqState = .init then { con with resState := .init,resBuf := [],reqBuf := [],reqDataLen := 0 } else con

def requestInit (P : Platform) (env : ReplyEnv) (con : Con) (ctx : Ctx) (arrived : List EfBuf) (token : Nat) :
    Outcome :=
  let con := con.begin
  let buf := headerFill (httpSpReqHeadLenMax - 1) con.reqBuf arrived
  match strstr buf httpEnd with
  | none =>
    if httpSpReqHeadLenMax - 1 < buf.length then
      requestFinish P { con := { con with reqBuf := buf,reqState := .requestHeaderError },ctx := ctx } token
    else { con := { con with reqBuf := buf,reqState := .initData },ctx := ctx }
  | some _ => requestHeader P env { con with reqBuf := buf,reqState := .requestHeader } ctx token

def Con.enqueue (con : Con) (arrived : List EfBuf) : Con :=
  { con with requestPktChain := efBufChain2chain con.requestPktChain (efBufEfbToChain arrived) }

def ngxHttpSnoopingRequestParse (P : Platform) (env : ReplyEnv) (con : Con) (ctx : Ctx) (arrived : List EfBuf)
    (token : Nat) : Outcome :=
  let con := con.enqueue arrived
  if con.requestPktChain.count = 0 ∨ token = 0 then { con := con,ctx := ctx }
  else match con.reqState with
  | .init | .initData => requestInit P env con ctx arrived token
  | .requestHeader => requestHeader P env con ctx token
  | _ => requestFinish P { con := con,ctx := ctx } token

end request

section response

def responseStatusOk (text : Bytes) : Bool :=
  match strchr text 32 with
  | none => false
  | some n =>
    let status := text.drop (n + 1)
    (strchr status 32).isSome && (ascii "200").isPrefixOf status

-- The scan for ';' starts behind the first byte and drops the byte before the ';' too.
def contentTypeCut (type : Bytes) : Bytes :=
  match (type.drop 1).findIdx? (· == 59) with
  | some i => type.take i
  | none => type

def responseContentType (text : Bytes) : Option Bytes :=
  match strstr text httpContentType with
  | none => none
  | some n =>
    let type := text.drop (n + httpContentType.length)
    (strstr type crlf).map fun e => contentTypeCut (type.take e)

def responseContentLen (text : Bytes) : LengthField :=
  match strstr text httpContentLen with
  | none => .missing
  | some n =>
    let len := text.drop (n + httpContentLen.length)
    match strstr len crlf with
    | none => .missing
    | some e =>
      if 20 < e then .missing
      else match ngxAtoi (len.take e) with
      | some value => .value value
      | none => .bad

def responseEncoding (text : Bytes) : EncodingType :=
  match strstr text httpContentEncodingType with
  | none => .none
  | some n => if (ascii "gzip").isPrefixOf (text.drop (n + httpContentEncodingType.length)) then .gzip else .deflate

def ngxHttpSnoopingCacheBufAlloc (ctx : Ctx) (dataLen : Nat) (id : UrlId) : Ctx :=
  let bufNum := (dataLen + httpSpBufLenMax - 1) / httpSpBufLenMax
  if bufNum ≤ ctx.bufs.bufNum then
    let taken := ctx.bufs.freeList.take bufNum
    { ctx with
      bufs :=
        { bufNum := ctx.bufs.bufNum - bufNum
          freeList := ctx.bufs.freeList.drop bufNum
          data := fun k => if k ∈ taken then [] else ctx.bufs.data k } }.modify id
      fun e => { e with dataBufList := taken,urlDataCurrent := taken.head? }
  else ctx.modify id fun e => { e with dataBufList := [] }

def bufNext (ids : List Nat) (k : Nat) : Option Nat := (ids.dropWhile (· ≠ k)).drop 1 |>.head?

-- Behind the last buffer the source writes over the list head; here those bytes are dropped.
def bufFill (ids : List Nat) : (Nat → Bytes) → Option Nat → Bytes → (Nat → Bytes) × Option Nat
  | data,some k,b :: bs =>
    let text := data k ++ [b]
    bufFill ids (Function.update data k text)
      (if text.length = httpSpBufLenMax then bufNext ids k else some k) bs
  | data,current,_ => (data,current)

def bodyPart (dataLen headerLen : Nat) (data : Bytes) : Bytes :=
  if dataLen ≤ headerLen then data.drop (headerLen - dataLen) else data

def bodyCapture (headerLen : Nat) (ctx : Ctx) (id : UrlId) (data : Bytes) : Ctx :=
  let e := ctx.urls id
  let more := word (e.urlDataLen + data.length)
  if e.urlFlags.cacheBufAlloc then
    let (filled,current) :=
      bufFill e.dataBufList ctx.bufs.data e.urlDataCurrent (bodyPart e.urlDataLen headerLen data)
    { ctx with bufs := { ctx.bufs with data := filled } }.modify id
      fun e => { e with urlDataLen := more,urlDataCurrent := current }
  else ctx.modify id fun e => { e with urlDataLen := more }

def bodyStart (con : Con) (ctx : Ctx) (id : UrlId) : Ctx :=
  if (ctx.urls id).dataStart then ctx
  else
    let ctx := ctx.modify id fun e => { e with dataStart := true }
    if (ctx.urls id).cacheFlg.spWrite then
      let ctx := ngxHttpSnoopingCacheBufAlloc ctx con.dataLen id
      if (ctx.urls id).dataBufList = [] then ctx else ctx.setFlags id ({ · with cacheBufAlloc := true })
    else ctx

def bodyPackets (con : Con) (ctx : Ctx) (id : UrlId) (chain : Chain) : Ctx :=
  (chain.pkts ++ chain.surplus).foldl (fun ctx p => bodyCapture con.responseHeaderLen ctx id p.data) (bodyStart con ctx id)

def bodyEnd (con : Con) (ctx : Ctx) (id : UrlId) : Con × Ctx :=
  if word (con.dataLen + con.responseHeaderLen) ≤ (ctx.urls id).urlDataLen then
    ({ con with resState := .done },
      ctx.modify id fun e => { e with urlDataLen := wordSub e.urlDataLen con.responseHeaderLen })
  else (con,ctx)

def ngxHttpSnoopingCacheBuf (con : Con) (ctx : Ctx) (id : UrlId) (chain : Chain) : Con × Ctx :=
  if con.transEncodingType ∨ (ctx.urls id).urlResLen = 0 ∨ chain.count = 0 then (con,ctx)
  else bodyEnd con (bodyPackets con ctx id chain) id

def responseForward (P : Platform) (con : Con) (ctx : Ctx) (token : Nat) : Outcome :=
  let (dst,src) := P.getn con.responsePktChain token
  { con := { con with responsePktChain := src },ctx := ctx,chain := dst,notify := src.count ≠ 0 }

def responseError (P : Platform) (con : Con) (ctx : Ctx) (token : Nat) : Outcome :=
  responseForward P { con with resState := .requestHeaderError,resBuf := [] } ctx token

def responseDone (o : Outcome) (id : UrlId) : Outcome :=
  { o with ctx := o.ctx.setFlags id ({ · with resCache := true }) }

def responseData (P : Platform) (con : Con) (ctx : Ctx) (id : UrlId) (token : Nat) : Outcome :=
  let o := responseForward P con ctx token
  let (con,ctx) := ngxHttpSnoopingCacheBuf o.con o.ctx id o.chain
  if con.resState = .dataLine then { o with con := con,ctx := ctx }
  else responseDone { o with con := con,ctx := ctx } id

def responseAccept (P : Platform) (con : Con) (ctx : Ctx) (id : UrlId) (text : Bytes) (token : Nat) : Outcome :=
  let encoding := responseEncoding text
  let ctx := ctx.modify id fun e =>
    { e with
      dataStart := false
      encodingType := encoding
      urlDataLen := 0
      urlFlags := { e.urlFlags with resLfb := true } }
  responseData P { con with encodingType := encoding,resState := .dataLine } ctx id token

def responseHeader (P : Platform) (con : Con) (ctx : Ctx) (id : UrlId) (token : Nat) : Outcome :=
  let text := cstr con.resBuf
  if responseStatusOk text = false then responseError P con ctx token
  else match responseContentType text with
  | none => responseError P con ctx token
  | some type =>
    let ctx := if con.postFix then ctx.modify id fun e => { e with mimePostfix := P.mimeOf type } else ctx
    if (strstr text httpTransEncodingTypeChunked).isSome then
      responseAccept P { con with transEncodingType := true } ctx id text token
    else
      let con := { con with transEncodingType := false }
      match responseContentLen text with
      | .missing => responseError P con ctx token
      | .bad => responseError P { con with dataLen := 0 } ctx token
      | .value n =>
        responseAccept P { con with dataLen := n } (ctx.modify id fun e => { e with urlResLen := n }) id text token

def Con.beginResponse (con : Con) : Con :=
  if con.resState = .init then { con with resBuf := [],reqBuf := [],reqDataLen := 0,reqState := .init } else con

def responseInit (P : Platform) (con : Con) (ctx : Ctx) (id : UrlId) (arrived : List EfBuf) (token : Nat) : Outcome :=
  let con := con.beginResponse
  let buf := headerFill (httpSpResHeadLenMax - 1) con.resBuf arrived
  match strstr buf httpEnd with
  | none =>
    if httpSpResHeadLenMax - 1 ≤ buf.length then responseError P { con with resBuf := buf } ctx token
    else { con := { con with resBuf := buf,resState := .initData },ctx := ctx }
  | some n =>
    responseHeader P { con with resBuf := buf,resState := .requestHeader,responseHeaderLen := n + httpEnd.length }
      ctx id token

def responseStates (P : Platform) (con : Con) (ctx : Ctx) (id : UrlId) (arrived : List EfBuf) (token : Nat) :
    Outcome :=
  match con.resState with
  | .init | .initData => responseInit P con ctx id arrived token
  | .requestHeader => responseHeader P con ctx id token
  | .done => responseDone { con := con,ctx := ctx } id
  | .dataLine => responseData P con ctx id token
  | .requestHeaderError => responseError P con ctx token
  | _ => responseForward P con ctx token

def responseDiscard (o : Outcome) (id : UrlId) : Outcome :=
  let e := o.ctx.urls id
  if e.cacheFlg.conClose ∧ o.chain.count ≠ 0 ∧ e.urlFlags.resWrite then
    { o with chain := efBufInitChain,freed := o.chain.pkts }
  else o

def Con.enqueueResponse (con : Con) (arrived : List EfBuf) : Con :=
  { con with responsePktChain := efBufChain2chain con.responsePktChain (efBufEfbToChain arrived) }

def Con.nextRequest (con : Con) : Con := { con with reqState := .init,reqBuf := [] }

def ngxHttpSnoopingResponseParse (P : Platform) (con : Con) (ctx : Ctx) (arrived : List EfBuf) (token : Nat) :
    Outcome :=
  let con := con.enqueueResponse arrived
  if con.responsePktChain.count = 0 ∨ token = 0 then { con := con,ctx := ctx }
  else match con.conUrl with
  | none =>
    let o := responseForward P con ctx token
    { o with con := o.con.nextRequest }
  | some id =>
    if con.reqState = .requestHeaderError then
      let o := responseForward P con ctx token
      { o with con := o.con.nextRequest }
    else responseDiscard (responseStates P con ctx id arrived token) id

end response

inductive Side where
  | client | server
  deriving DecidableEq, Repr

def ngxHttpSnoopingCreate (con : Con) (clientAddr localServerAddr : Nat) : Con :=
  { con with
    conFlags := true
    clientApp := true
    serverApp := true
    clientAddr := clientAddr
    localServerAddr := localServerAddr
    reqMethod := .none
    reqState := .init
    resState := .init
    reqBuf := []
    resBuf := []
    conUrl := none
    requestPktChain := efBufInitChain
    responsePktChain := efBufInitChain }

def Con.app (con : Con) : Side → Bool
  | .client => con.clientApp
  | .server => con.serverApp

def Con.leave (con : Con) : Side → Con
  | .client => { con with clientApp := false }
  | .server => { con with serverApp := false }

def Side.pair : Side → Side
  | .client => .server
  | .server => .client

def conFree (con : Con) (ctx : Ctx) : Con × Ctx :=
  ({ con with
      conFlags := false
      conUrl := none
      requestPktChain := if 0 < con.requestPktChain.count then efBufInitChain else con.requestPktChain
      responsePktChain := if 0 < con.responsePktChain.count then efBufInitChain else con.responsePktChain },
    match con.conUrl with
    | some id => ctx.setFlags id ({ · with resCache := true })
    | none => ctx)

def ngxHttpSnoopingShut (con : Con) (ctx : Ctx) (side : Side) : Con × Ctx :=
  if con.app side then
    let con := con.leave side
    if con.app side.pair = false ∧ con.conFlags then conFree con ctx else (con,ctx)
  else (con,ctx)

def ngxHttpSnoopingData (P : Platform) (env : ReplyEnv) (con : Con) (ctx : Ctx) (side : Side) (pkts : List EfBuf)
    (token : Nat) : Outcome :=
  match side with
  | .client => ngxHttpSnoopingRequestParse P env con ctx pkts token
  | .server => ngxHttpSnoopingResponseParse P con ctx pkts token

def Outcome.sent (o : Outcome) : List EfBuf := if o.chain.count ≠ 0 then o.chain.pkts else []

end MipsElfExec.Snooping
