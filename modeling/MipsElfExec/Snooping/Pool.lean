import Mathlib.Data.Fintype.Card
import MipsElfExec.Lib.Run
import MipsElfExec.Snooping.Connection

/-! The blocks of the proxied connections. A connection takes a block off the free list when it
is created, both of its halves point to it, and the shutdown that finds the other half shut already
gives it back. What a call does before it takes the lock and what it does under it are two steps. -/
namespace MipsElfExec.Snooping
open CString MipsElfExec.Ring Run

def conMax : Nat := 2048

abbrev BlockId := Fin conMax

inductive WanTaApp where
  | none | httpSnooping
  deriving DecidableEq, Repr

structure Half where
  wanTaAppType : WanTaApp := .none
  wanTaAppCb : Option BlockId := .none
  deriving DecidableEq, Repr

structure TcpProxyCb where
  inAddrDst : Nat
  inPortDst : Nat
  inAddrSrc : Nat
  srcIpaddr : Nat
  deriving DecidableEq, Repr

inductive PoolOp where
  | init (n : Nat) (tp : TcpProxyCb) (b : BlockId)
  | refuse (n : Nat)
  | release (b : BlockId)
  deriving DecidableEq, Repr

-- `pending` holds the second steps of the calls under way. The last five count what each block went
-- through, and say who took it last, which of his halves have been shut since, and which packets were freed.
structure ConPool where
  ctx : Ctx
  conNum : Nat
  conLinks : Links ResList BlockId
  blocks : BlockId → Con := fun _ => {}
  halves : Nat → Side → Half := fun _ _ => {}
  created : Nat → Bool := fun _ => false
  pending : List PoolOp := []
  taken : BlockId → Nat := fun _ => 0
  given : BlockId → Nat := fun _ => 0
  owner : BlockId → Nat := fun _ => 0
  left : BlockId → Side → Bool := fun _ _ => false
  freed : List EfBuf := []

inductive PoolEvent where
  | create (n : Nat) (tp : TcpProxyCb)
  | data (n : Nat) (side : Side) (conUrl : Option UrlId) (req res : List EfBuf)
  | shut (n : Nat) (side : Side)
  | advance (k : Nat)
  deriving DecidableEq, Repr

def ConPool.start (jiffies : Nat) : ConPool :=
  { ctx := ngxHttpSnoopingInit jiffies,conNum := 0,conLinks := fill .free conMax (Nat.le_refl _) }

def setHalf (halves : Nat → Side → Half) (n : Nat) (side : Side) (half : Half) : Nat → Side → Half :=
  Function.update halves n (Function.update (halves n) side half)

-- With fewer blocks in use than there are, a list without a block is corrupted.
def ConPool.take (s : ConPool) (n : Nat) : Option BlockId × ConPool :=
  if s.conNum < conMax then
    match s.conLinks.next (.head .free) with
    | .head _ => (none,s)
    | .item b =>
      (some b,
        { s with
          conLinks := listAdd (listDel s.conLinks b) b .use
          conNum := (s.conNum + 1) % 65536
          taken := Function.update s.taken b (s.taken b + 1)
          owner := Function.update s.owner b n
          left := Function.update s.left b fun _ => false })
  else (none,s)

def ConPool.create (s : ConPool) (n : Nat) (tp : TcpProxyCb) : ConPool :=
  let s := { s with created := Function.update s.created n true }
  if tp.inAddrDst = s.ctx.serverAddr then s
  else if tp.inPortDst = 8080 ∨ tp.inPortDst = 80 then
    match s.take n with
    | (some b,s) => { s with pending := s.pending ++ [.init n tp b] }
    | (none,s) => { s with pending := s.pending ++ [.refuse n] }
  else s

def ConPool.shut (s : ConPool) (n : Nat) (side : Side) : ConPool :=
  match s.halves n side with
  | ⟨.none,_⟩ => s
  | ⟨.httpSnooping,cb⟩ =>
    let halves := setHalf s.halves n side {}
    match cb with
    | none => { s with halves := halves }
    | some b =>
      { s with
        halves := halves
        left := Function.update s.left b (Function.update (s.left b) side true)
        pending := if (halves n side.pair).wanTaAppType = .none then s.pending ++ [.release b] else s.pending }

def Con.queued (con : Con) : List EfBuf := con.requestPktChain.pkts ++ con.responsePktChain.pkts

def chainFreed (chain : Chain) : List EfBuf := if 0 < chain.count then chain.pkts else []

def ConPool.exec (s : ConPool) : PoolOp → ConPool
  | .init n tp b =>
    { s with
      blocks := Function.update s.blocks b (ngxHttpSnoopingCreate (s.blocks b) tp.inAddrSrc tp.srcIpaddr)
      halves := Function.update s.halves n fun _ => ⟨.httpSnooping,some b⟩ }
  | .refuse n => { s with halves := Function.update s.halves n fun side => { s.halves n side with wanTaAppType := .none } }
  | .release b =>
    if (s.blocks b).conFlags then
      { s with
        ctx := (conFree (s.blocks b) s.ctx).2
        blocks := Function.update s.blocks b (conFree (s.blocks b) s.ctx).1
        conLinks := listAdd (listDel s.conLinks b) b .free
        conNum := (s.conNum + 65535) % 65536
        given := Function.update s.given b (s.given b + 1)
        freed := s.freed ++ chainFreed (s.blocks b).requestPktChain ++ chainFreed (s.blocks b).responsePktChain }
    else s

def Con.hold (con : Con) (conUrl : Option UrlId) (req res : List EfBuf) : Con :=
  { con with conUrl := conUrl,requestPktChain := efBufEfbToChain req,responsePktChain := efBufEfbToChain res }

def ConPool.step (s : ConPool) : PoolEvent → Option ConPool
  | .create n tp => if s.created n then none else some (s.create n tp)
  | .data n side conUrl req res =>
    match s.halves n side with
    | ⟨.httpSnooping,some b⟩ =>
      some { s with blocks := Function.update s.blocks b ((s.blocks b).hold conUrl req res) }
    | _ => none
  | .shut n side => some (s.shut n side)
  | .advance k => (s.pending[k]?).map fun op => { s with pending := s.pending.eraseIdx k }.exec op

def ConPool.keeps (s : ConPool) (e : PoolEvent) (t : ConPool) : Prop :=
  match e with
  | .data _ _ _ _ _ => t.given = s.given ∧ t.freed = s.freed
  | _ =>
    t.given = s.given ∧ t.freed = s.freed ∧ (∀ b,(t.blocks b).queued = (s.blocks b).queued) ∨
    ∃ b,(∀ side,s.left b side = true) ∧ t.given = Function.update s.given b (s.given b + 1) ∧
      t.freed = s.freed ++ (s.blocks b).queued ∧
      ∀ c,(t.blocks c).queued = if c = b then [] else (s.blocks c).queued

variable {s t : ConPool} {lists : ResList → List BlockId} {n : Nat} {b : BlockId} {tp : TcpProxyCb}

section pending
variable {front back : List PoolOp} {op other : PoolOp}

end pending

end MipsElfExec.Snooping
