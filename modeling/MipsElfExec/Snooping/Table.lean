import Mathlib.Logic.Function.Basic
import MipsElfExec.Lib.Ring
import MipsElfExec.Lib.Section
import MipsElfExec.Snooping.Key

/-! The URL table: entries that move between the free and the in-use list, the hash
buckets that find them by key, and the timer wheel that queues them for the write task.
Each operation is a sequence of critical sections. -/
namespace MipsElfExec.Snooping
open CString MipsElfExec.Ring Section

def httpSpUrlMax : Nat := 32768
def httpCacheTimeOut : Nat := 20

abbrev UrlId := Fin httpSpUrlMax

instance : NeZero httpSpUrlMax := ⟨by decide⟩

structure UrlFlags where
  res : Bool := false
  cacheList : Bool := false
  urlHash : Bool := false
  resLfb : Bool := false
  resLfok : Bool := false
  resLfp : Bool := false
  cacheBufAlloc : Bool := false
  resCache : Bool := false
  resWrite : Bool := false
  ngxDown : Bool := false
  ngxParseOk : Bool := false
  ngxWaitResponse : Bool := false
  deriving DecidableEq, Repr

inductive C2spAction where
  | get | getnext | add | delete
  deriving DecidableEq, Repr

inductive LocalDownState where
  | init | ok | error | ing
  deriving DecidableEq, Repr

inductive EncodingType where
  | none | gzip | deflate
  deriving DecidableEq, Repr

-- `tenancy` counts the allocations of the slot; the source keeps no such count.
structure UrlEntry where
  urlFlags : UrlFlags := {}
  redirectAddr : Nat := 0
  serverName : Bytes := []
  resUrl : Bytes := []
  fileKeyName : Bytes := []
  urlResLen : Nat := 0
  urlDataLen : Nat := 0
  encodingType : EncodingType := .none
  dataStart : Bool := false
  urlAccessNum : Nat := 0
  localDownState : LocalDownState := .init
  urlAction : Option C2spAction := none
  pktSendTick : Nat := 0
  mimePostfix : Bytes := []
  pcacheRule : Option Rule := none
  dataBufList : List Nat := []
  urlDataCurrent : Option Nat := none
  tenancy : Nat := 0
  deriving DecidableEq, Repr

def UrlEntry.urlBuf (e : UrlEntry) : Bytes := e.serverName ++ e.resUrl

def UrlEntry.setFlags (e : UrlEntry) (f : UrlFlags → UrlFlags) : UrlEntry := { e with urlFlags := f e.urlFlags }

def UrlEntry.lease (fill : UrlEntry → UrlEntry) (e : UrlEntry) : UrlEntry := { fill e with tenancy := e.tenancy + 1 }

def UrlEntry.cacheFlg (e : UrlEntry) : CacheFlg := (e.pcacheRule.map Rule.cacheFlg).getD {}

inductive ResList where
  | free | use
  deriving DecidableEq, Repr

structure BufPool where
  bufNum : Nat
  freeList : List Nat
  data : Nat → Bytes

structure Ctx where
  urlFree : Nat
  resLinks : Links ResList UrlId
  hashLinks : Links Nat UrlId
  cacheLinks : Links Nat UrlId
  cacheNum : Nat
  urls : UrlId → UrlEntry
  bufs : BufPool
  writeTick : Nat
  jiffies : Nat
  serverAddr : Nat
  homepageHash : Nat → Nat

def Ctx.modify (ctx : Ctx) (id : UrlId) (f : UrlEntry → UrlEntry) : Ctx :=
  { ctx with urls := Function.update ctx.urls id (f (ctx.urls id)) }

def Ctx.setFlags (ctx : Ctx) (id : UrlId) (f : UrlFlags → UrlFlags) : Ctx := ctx.modify id (·.setFlags f)

def Ctx.setRes (ctx : Ctx) (resLinks : Links ResList UrlId) (urlFree : Nat) : Ctx :=
  { ctx with resLinks := resLinks,urlFree := urlFree }

def Ctx.setHash (ctx : Ctx) (hashLinks : Links Nat UrlId) : Ctx := { ctx with hashLinks := hashLinks }

def Ctx.setCache (ctx : Ctx) (cacheLinks : Links Nat UrlId) (cacheNum : Nat) : Ctx :=
  { ctx with cacheLinks := cacheLinks,cacheNum := cacheNum % 65536 }

def initLinks : (n : Nat) → n ≤ httpSpUrlMax → Links ResList UrlId
  | 0,_ => Links.empty
  | n + 1,small => listAdd (initLinks n (Nat.le_of_succ_le small)) ⟨n,small⟩ .free

def ngxHttpSnoopingInit (jiffies : Nat) : Ctx :=
  { urlFree := httpSpUrlMax
    resLinks := initLinks httpSpUrlMax (Nat.le_refl _)
    hashLinks := Links.empty
    cacheLinks := Links.empty
    cacheNum := 0
    urls := fun _ => {}
    bufs := ⟨4096,List.range 4096,fun _ => []⟩
    writeTick := 0
    jiffies := jiffies
    serverAddr := 0
    homepageHash := fun _ => 0 }

def urlBucket (key : Bytes) : Nat := ngxHashKey key % httpSpUrlMax

-- strncmp stops at a NUL, so keys of one length may differ behind it.
def hashSame (a b : Bytes) : Bool := a.length == b.length && cstr a == cstr b

def hashWalk (ctx : Ctx) (key : Bytes) : Nat → Node Nat UrlId → Option UrlId
  | n + 1,.item id =>
    if hashSame key (ctx.urls id).fileKeyName then some id else hashWalk ctx key n (ctx.hashLinks.next (.item id))
  | _,_ => none

def ngxHttpSnoopingUrlHashFind (ctx : Ctx) (key : Bytes) : Option UrlId :=
  hashWalk ctx key httpSpUrlMax (ctx.hashLinks.next (.head (urlBucket key)))

def ngxHttpSnoopingUrlHashAdd (ctx : Ctx) (id : UrlId) : Ctx :=
  (ctx.setHash (listAddTail ctx.hashLinks id (urlBucket (ctx.urls id).fileKeyName))).setFlags id ({ · with urlHash := true })

def ngxHttpSnoopingUrlHashDel (ctx : Ctx) (id : UrlId) : Ctx :=
  (ctx.setHash (listDel ctx.hashLinks id)).setFlags id ({ · with urlHash := false })

def httpUrlCacheAdd (ctx : Ctx) (id : UrlId) (tick : Nat) : Ctx :=
  if (ctx.urls id).urlFlags.cacheList then ctx
  else
    (ctx.setCache (listAddTail ctx.cacheLinks id ((ctx.writeTick + tick) % httpCacheTimeOut))
        (ctx.cacheNum + 1)).setFlags id ({ · with cacheList := true })

-- A list that leads to another head is corrupted; the source then takes that head for an entry.
def httpUrlCacheGet (ctx : Ctx) : Option (UrlId × Ctx) :=
  match ctx.cacheLinks.next (.head (ctx.writeTick % httpCacheTimeOut)) with
  | .head _ => none
  | .item id => some (id,
    (ctx.setCache (listDelInit ctx.cacheLinks id) (ctx.cacheNum + 65535)).setFlags id ({ · with cacheList := false }))

def urlNextFree (ctx : Ctx) : Option UrlId :=
  if 0 < ctx.urlFree then
    match ctx.resLinks.next (.head .free) with
    | .head _ => none
    | .item id => some id
  else none

def urlTake (ctx : Ctx) (id : UrlId) (fill : UrlEntry → UrlEntry) : Ctx :=
  ngxHttpSnoopingUrlHashAdd
    ((ctx.setRes (listAdd (listDel ctx.resLinks id) id .use) (ctx.urlFree - 1)).modify id (UrlEntry.lease fill)) id

def urlRelease (ctx : Ctx) (id : UrlId) : Ctx :=
  let ctx := if (ctx.urls id).urlFlags.urlHash then ngxHttpSnoopingUrlHashDel ctx id else ctx
  (ctx.setRes (listAdd (listDel ctx.resLinks id) id .free) (ctx.urlFree + 1)).setFlags id (fun _ => {})

def UrlEntry.access (e : UrlEntry) : UrlEntry := { e with urlAccessNum := (e.urlAccessNum + 1) % 65536 }

def UrlEntry.hold (e : UrlEntry) (name : Bytes) : UrlEntry :=
  { e with
    dataBufList := []
    serverName := name.takeWhile (· ≠ 47)
    resUrl := name.dropWhile (· ≠ 47) }

def addFill (serverAddr : Nat) (rule : Rule) (key : Bytes) (e : UrlEntry) : UrlEntry :=
  { e with
    urlFlags := { res := true }
    fileKeyName := key
    pcacheRule := some rule
    redirectAddr := serverAddr
    encodingType := .none
    mimePostfix := [] }

def youkuFill (rule : Rule) (key : Bytes) (e : UrlEntry) : UrlEntry :=
  { e with
    urlFlags := { res := true }
    fileKeyName := key
    pcacheRule := some rule
    encodingType := .none
    mimePostfix := [] }

def recordFill (jiffies : Nat) (rule : Rule) (key : Bytes) (e : UrlEntry) : UrlEntry :=
  { e with
    urlFlags := { res := true }
    fileKeyName := key
    pcacheRule := some rule
    redirectAddr := 0
    pktSendTick := jiffies }

-- One critical section each, with the unlocked statements next to it.
inductive TableOp where
  | find (key : Bytes)
  | addNew (rule : Rule) (key name : Bytes)
  | addMore (id : UrlId)
  | delete (id : UrlId)
  | youkuPut (found : Option UrlId) (rule : Rule) (key name : Bytes)
  | youkuQueue (id : UrlId)
  | recordNew (rule : Rule) (key server res : Bytes)
  | recordQueue (id : UrlId)
  | setby (id : UrlId) (state : LocalDownState)
  deriving DecidableEq, Repr

def addHold (ctx : Ctx) (id : UrlId) (name : Bytes) : Ctx :=
  ctx.modify id fun e =>
    { e.hold name with
      pktSendTick := ctx.jiffies
      urlFlags := { e.urlFlags with resLfb := true }
      urlAccessNum := 1 }

def youkuHold (ctx : Ctx) (id : UrlId) (name : Bytes) : Ctx :=
  ctx.modify id fun e =>
    { (e.hold name).access with
      pktSendTick := ctx.jiffies
      urlFlags := { e.urlFlags with ngxDown := true,resLfb := true } }

def recordHold (ctx : Ctx) (id : UrlId) (server res : Bytes) : Ctx :=
  ctx.modify id fun e =>
    { e with
      dataBufList := []
      serverName := server
      resUrl := res
      urlAccessNum := 0
      encodingType := .none
      urlAction := some .add }

def stateSetby (ctx : Ctx) (id : UrlId) (state : LocalDownState) : Ctx :=
  if (ctx.urls id).urlFlags.res then
    match state with
    | .ok =>
      httpUrlCacheAdd (ctx.modify id fun e =>
        { e with
          localDownState := .ok
          urlFlags := { e.urlFlags with ngxDown := true }
          urlAction := some .add }) id 0
    | .error => httpUrlCacheAdd (ctx.modify id fun e => { e with localDownState := .init }) id 11
    | _ => ctx.modify id fun e => { e with localDownState := .init }
  else ctx

def urlPut (ctx : Ctx) (found : Option UrlId) (fill : UrlEntry → UrlEntry) (hold : Ctx → UrlId → Ctx) :
    Option UrlId × Ctx :=
  match found with
  | some id => (some id,hold ctx id)
  | none =>
    match urlNextFree ctx with
    | some id => (some id,hold (urlTake ctx id fill) id)
    | none => (none,ctx)

def TableOp.exec : TableOp → Ctx → Option UrlId × Ctx
  | .find key,ctx => (ngxHttpSnoopingUrlHashFind ctx key,ctx)
  | .addNew rule key name,ctx => urlPut ctx none (addFill ctx.serverAddr rule key) fun ctx id => addHold ctx id name
  | .addMore id,ctx => (some id,ctx.modify id UrlEntry.access)
  | .delete id,ctx => (some id,httpUrlCacheAdd (ctx.modify id fun e => { e with urlAction := some .delete }) id 0)
  | .youkuPut found rule key name,ctx => urlPut ctx found (youkuFill rule key) fun ctx id => youkuHold ctx id name
  | .youkuQueue id,ctx => (some id,httpUrlCacheAdd ctx id 1)
  | .recordNew rule key server res,ctx =>
    urlPut ctx none (recordFill ctx.jiffies rule key) fun ctx id => recordHold ctx id server res
  | .recordQueue id,ctx =>
    (some id,(httpUrlCacheAdd ctx id 0).modify id fun e => { e.access with mimePostfix := [] })
  | .setby id state,ctx => (none,stateSetby ctx id state)

abbrev TableProg := Prog TableOp (Option UrlId) (Option UrlId)

def TableProg.exec (p : TableProg) (ctx : Ctx) : Option UrlId × Ctx := p.run TableOp.exec ctx

def ngxHttpSpUrlHandle (name : Bytes) (action : C2spAction) : TableProg :=
  if httpSpUrlLenMax - 1 < name.length then .done none
  else match ngxHttpUrlRuleGet name with
  | none => .done none
  | some rule =>
    if rule.cacheFlg.actionCacheUpstream = false then .done none
    else
      let key := ngxHttpSnoopingUrl2localKey (47 :: name) rule
      if httpSpLfileLenMax ≤ key.length then .done none
      else .step (.find key) fun found =>
        match action,found with
        | .add,none => .step (.addNew rule key name) .done
        | .add,some id => .step (.addMore id) .done
        | .delete,some id => .step (.delete id) .done
        | _,_ => .done none

def recordTarget (server res : Bytes) : Option (Rule × Bytes) :=
  if httpSpUrlLenMax - 1 < server.length + res.length + 1 then none
  else match ngxHttpUrlRuleGet (server ++ res) with
  | none => none
  | some rule =>
    let key := ngxHttpSnoopingUrl2localKey (47 :: (server ++ res)) rule
    if httpSpLfileLenMax < key.length then none else some (rule,key)

def ngxHttpYoukuUrlAdd (name : Bytes) : TableProg :=
  if httpSpUrlLenMax - 1 < name.length + 1 then .done none
  else match ngxHttpUrlRuleGet name with
  | none => .done none
  | some rule =>
    let key := ngxHttpSnoopingUrl2localKey (47 :: name) rule
    if httpSpLfileLenMax < key.length then .done none
    else .step (.find key) fun found => .step (.youkuPut found rule key name) fun put =>
      match put with
      | some id => .step (.youkuQueue id) .done
      | none => .done none

def ngxHttpSnoopingUrlRecord (server res : Bytes) : TableProg :=
  match recordTarget server res with
  | none => .done none
  | some (rule,key) => .step (.find key) fun found =>
    match found with
    | some id => .step (.addMore id) .done
    | none =>
      if rule.cacheFlg.actionCacheSp then .step (.recordNew rule key server res) fun put =>
        match put with
        | some id => .step (.recordQueue id) .done
        | none => .done none
      else .done none

def ngxHttpSpUrlStateSetbyId (id : Nat) (state : LocalDownState) : TableProg :=
  if small : id < httpSpUrlMax then .step (.setby ⟨id,small⟩ state) .done else .done none

end MipsElfExec.Snooping
