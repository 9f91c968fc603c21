import MipsElfExec.Snooping.Table

/-! The write task: a pass takes entries off the current slot of the timer wheel, has
them parsed or downloaded, and in the end logs each and removes the deleted ones. -/
namespace MipsElfExec.Snooping
open CString MipsElfExec.Ring

inductive Sp2cAction where
  | parse | down | getnext
  deriving DecidableEq, Repr

structure Sp2cReq where
  sessionId : UrlId
  sp2cAction : Sp2cAction
  urlData : Bytes
  deriving DecidableEq, Repr

-- How a cached body was written out; a broken deflate stream loses the buffer it broke in.
inductive WriteOutcome where
  | saved | failed
  | broken (at_ : Nat)
  deriving DecidableEq, Repr

inductive Writer where
  | idle
  | pass (fd : Bool) (i : Nat)
  | took (fd : Bool) (i : Nat) (id : UrlId)
  | calling (fd : Bool) (i : Nat) (id : UrlId) (action : Sp2cAction)
  | logging (i : Nat) (id : UrlId)
  | removing (i : Nat) (id : UrlId)
  deriving DecidableEq, Repr

inductive WriterEvent where
  | begin (fd : Bool)
  | turn
  | work (outcome : WriteOutcome)
  | answer (ok : Bool)
  | log
  | remove
  deriving DecidableEq, Repr

inductive WriterOut where
  | send (req : Sp2cReq)
  | log (added : Bool) (url : Bytes)
  deriving DecidableEq, Repr

def bufsFree (pool : BufPool) (ids : List Nat) : BufPool :=
  { pool with
    bufNum := (pool.bufNum + ids.length) % 65536
    freeList := ids.reverse ++ pool.freeList }

def urlBufsFree (ctx : Ctx) (id : UrlId) (lost : List Nat → List Nat) : Ctx :=
  { ctx with bufs := bufsFree ctx.bufs (lost (ctx.urls id).dataBufList) }.modify id
    fun e => { e with dataBufList := [] }

def bodyWrite (ctx : Ctx) (id : UrlId) (outcome : WriteOutcome) : Ctx :=
  let lost (at_ : Nat) (ids : List Nat) :=
    if (ctx.urls id).encodingType = .deflate then ids.eraseIdx at_ else ids
  match outcome with
  | .saved => (urlBufsFree ctx id fun ids => ids).setFlags id ({ · with resWrite := true })
  | .failed => (urlBufsFree ctx id fun ids => ids).setFlags id ({ · with resCache := false,cacheBufAlloc := false })
  | .broken at_ => (urlBufsFree ctx id (lost at_)).setFlags id ({ · with resCache := false,cacheBufAlloc := false })

def ngxHttpUrlWrite (ctx : Ctx) (id : UrlId) (outcome : WriteOutcome) : Ctx :=
  let e := ctx.urls id
  if e.urlFlags.resCache = false then ctx
  else if e.urlFlags.cacheBufAlloc = false then
    ctx.setFlags id ({ · with resCache := false })
  else if e.urlFlags.resWrite then ctx
  else if e.urlResLen ≠ e.urlDataLen then
    (urlBufsFree ctx id fun ids => ids).modify id
      fun e => { e with urlDataLen := 0,urlFlags := { e.urlFlags with resCache := false } }
  else bodyWrite ctx id outcome

def urlLocalFileInit (e : UrlEntry) : UrlEntry :=
  if e.urlFlags.resLfb = true ∧ e.urlFlags.resLfok = false then
    { e with urlFlags := { e.urlFlags with resLfp := true,resLfok := true } }
  else e

abbrev Written := Ctx × Writer × Option WriterOut

def requeue (ctx : Ctx) (fd : Bool) (i : Nat) (id : UrlId) (tick : Nat) : Written :=
  (httpUrlCacheAdd ctx id tick,.pass fd i,none)

def sp2cSend (hz : Nat) (ctx : Ctx) (fd : Bool) (i : Nat) (id : UrlId) (action : Sp2cAction) : Written :=
  let due := 20 * hz ≤ wordSub ctx.jiffies (ctx.urls id).pktSendTick
  let sent := if due then ctx.modify id fun e => { e with pktSendTick := ctx.jiffies } else ctx
  ((httpUrlCacheAdd sent id 11).setFlags id ({ · with ngxWaitResponse := true }),
    .pass fd i,if due then some (.send ⟨id,action,(ctx.urls id).urlBuf⟩) else none)

def writeFinish (ctx : Ctx) (fd : Bool) (i : Nat) (id : UrlId) : Written :=
  (if (ctx.urls id).urlFlags.ngxDown then
      ctx.setFlags id ({ · with resWrite := true })
    else ctx,
    if fd then .logging i id else .pass fd i,none)

def writeDown (hz : Nat) (ctx : Ctx) (fd : Bool) (i : Nat) (id : UrlId) : Written :=
  if (ctx.urls id).cacheFlg.actionCacheUpstream = true ∧ (ctx.urls id).urlFlags.ngxDown = false then
    if ctx.serverAddr = 0 then (ctx,.calling fd i id .down,none) else sp2cSend hz ctx fd i id .down
  else writeFinish ctx fd i id

def writeParse (hz : Nat) (ctx : Ctx) (fd : Bool) (i : Nat) (id : UrlId) : Written :=
  if (ctx.urls id).cacheFlg.actionUpparse = true ∧ (ctx.urls id).urlFlags.ngxParseOk = false then
    if ctx.serverAddr = 0 then (ctx,.calling fd i id .parse,none) else sp2cSend hz ctx fd i id .parse
  else writeDown hz ctx fd i id

def writeBody (hz : Nat) (ctx : Ctx) (fd : Bool) (i : Nat) (id : UrlId) (outcome : WriteOutcome) : Written :=
  if (ctx.urls id).cacheFlg.spWrite = true ∧ (ctx.urls id).urlFlags.resWrite = false then
    let ctx := ngxHttpUrlWrite ctx id outcome
    if (ctx.urls id).urlFlags.resWrite then writeParse hz ctx fd i id else requeue ctx fd i id 3
  else writeParse hz ctx fd i id

def writeTook (hz : Nat) (ctx : Ctx) (fd : Bool) (i : Nat) (id : UrlId) (outcome : WriteOutcome) : Written :=
  let ctx := ctx.modify id urlLocalFileInit
  if (ctx.urls id).urlFlags.resLfok then writeBody hz ctx fd i id outcome else requeue ctx fd i id 3

def writeAnswer (hz : Nat) (ctx : Ctx) (fd : Bool) (i : Nat) (id : UrlId) (action : Sp2cAction) (ok : Bool) :
    Written :=
  if ok then
    let ctx := ctx.setFlags id ({ · with ngxParseOk := true })
    match action with
    | .parse => writeDown hz ctx fd i id
    | _ => writeFinish ctx fd i id
  else requeue ctx fd i id 11

def ngxHttpSnoopingWriteProcess (hz : Nat) (ctx : Ctx) : Writer → WriterEvent → Option Written
  | .idle,.begin fd => some (ctx,.pass fd 0,none)
  | .pass fd i,.turn =>
    if i < 32 then match httpUrlCacheGet ctx with
      | some (id,ctx) => some (ctx,.took fd (i + 1) id,none)
      | none => some ({ ctx with writeTick := ctx.writeTick + 1 },.idle,none)
    else some (ctx,.idle,none)
  | .took fd i id,.work outcome => some (writeTook hz ctx fd i id outcome)
  | .calling fd i id action,.answer ok => some (writeAnswer hz ctx fd i id action ok)
  | .logging i id,.log =>
    some (ctx,.removing i id,some (.log ((ctx.urls id).urlAction == some .add) (ctx.urls id).urlBuf))
  | .removing i id,.remove =>
    some (if (ctx.urls id).urlAction = some .delete then urlRelease ctx id else ctx,.pass true i,none)
  | _,_ => none

end MipsElfExec.Snooping
