import MipsElfExec.Snooping.Conserve
import MipsElfExec.Snooping.System

/-! Responses that are cut short: what comes from a server is sent or queued, unless the
shared entry of its request is stored by then and the rule of the entry closes connections. -/
namespace MipsElfExec.Snooping
open CString Run

variable {P : Platform} {con : Con} {ctx : Ctx} {token : Nat} {arrived : List EfBuf}

structure CorrectSplit (getn : Chain → Nat → Chain × Chain) : Prop where
  front : ∀ {c : Chain} {token : Nat},c.counted → (getn c token).1.pkts = c.pkts.take token
  rest : ∀ {c : Chain} {token : Nat},c.counted → (getn c token).2.pkts = c.pkts.drop token
  counted : ∀ {c : Chain} {token : Nat},c.counted → (getn c token).1.counted ∧ (getn c token).2.counted

def discards (con : Con) (ctx : Ctx) (arrived : List EfBuf) : Bool :=
  match con.conUrl with
  | none => false
  | some id => con.reqState != .requestHeaderError && statesReach (con.enqueueResponse arrived) arrived &&
    (ctx.urls id).cacheFlg.conClose && (ctx.urls id).urlFlags.resWrite

structure Passed (con : Con) (ctx : Ctx) (arrived : List EfBuf) (token : Nat) (o : Outcome) : Prop where
  order : o.freed ++ o.sent ++ o.con.responsePktChain.pkts = con.responsePktChain.pkts ++ arrived
  freed : o.freed = if discards con ctx arrived then (con.responsePktChain.pkts ++ arrived).take token else []

theorem countedSent {o : Outcome} (counted : o.chain.counted) : o.sent = o.chain.pkts := by
  unfold Outcome.sent
  split
  · rfl
  · rename_i none_
    have empty : o.chain.pkts.length = 0 := counted ▸ not_not.mp none_
    exact (List.length_eq_zero_iff.mp empty).symm

theorem responseEnqueued (counted : con.responsePktChain.counted) (arrived : List EfBuf) :
    (con.enqueueResponse arrived).responsePktChain.counted ∧
    (con.enqueueResponse arrived).responsePktChain.pkts = con.responsePktChain.pkts ++ arrived :=
  ⟨(@flowWait _ [] arrived _ ⟨rfl,counted⟩).counted,rfl⟩

theorem pageFlags {id : UrlId} {reach : Bool} {o : Outcome} (responded : Responded P con ctx id token reach o) :
    (o.ctx.urls id).cacheFlg.conClose = (ctx.urls id).cacheFlg.conClose ∧
    (o.ctx.urls id).urlFlags.resWrite = (ctx.urls id).urlFlags.resWrite :=
  ⟨congrArg CacheFlg.conClose (coreUrl (responded.only.still.core id)).2,congrArg Served.resWrite responded.only.served⟩

theorem responsePassed (split_ : CorrectSplit P.getn) (counted : con.responsePktChain.counted) :
    let o := ngxHttpSnoopingResponseParse P con ctx arrived token
    Passed con ctx arrived token o ∧ o.con.responsePktChain.counted := by
  obtain ⟨whole,pkts⟩ := responseEnqueued counted arrived
  have replied := responseCases P con ctx arrived token
  dsimp only
  generalize ngxHttpSnoopingResponseParse P con ctx arrived token = o at replied ⊢
  obtain ⟨first,last⟩ := @CorrectSplit.counted _ split_ _ token whole
  have pieces : (P.getn (con.enqueueResponse arrived).responsePktChain token).1.pkts ++
      (P.getn (con.enqueueResponse arrived).responsePktChain token).2.pkts = con.responsePktChain.pkts ++ arrived := by
    rw [split_.front whole,split_.rest whole,List.take_append_drop,pkts]
  cases replied with
  | wait idle =>
    have empty : (con.responsePktChain.pkts ++ arrived).take token = [] := by
      rcases idle with none_ | zero
      · have length : (con.responsePktChain.pkts ++ arrived).length = 0 := pkts ▸ whole.symm.trans none_
        rw [List.length_eq_zero_iff.mp length,List.take_nil]
      · rw [zero,List.take_zero]
    exact ⟨⟨pkts,by rw [empty,ite_self]⟩,whole⟩
  | plain free =>
    have kept : discards con ctx arrived = false := by
      unfold discards
      rcases free with none_ | error
      · change con.conUrl = none at none_
        rw [none_]
      · change con.reqState = .requestHeaderError at error
        rw [error]
        cases con.conUrl <;> rfl
    refine ⟨⟨?_,by rw [kept]; rfl⟩,last⟩
    rw [countedSent (o := { responseForward P (con.enqueueResponse arrived) ctx token with
      con := (responseForward P (con.enqueueResponse arrived) ctx token).con.nextRequest }) first]
    exact pieces
  | @page id o owner valid responded =>
    obtain ⟨closes,stored⟩ := pageFlags responded
    have owner : con.conUrl = some id := owner
    have valid : (con.reqState != .requestHeaderError) = true := bne_iff_ne.mpr valid
    obtain ⟨_,silent⟩ := responded.silent
    have chain := congrArg Prod.fst responded.queue
    have rest := congrArg Prod.snd responded.queue
    dsimp only at chain rest
    have due : discards con ctx arrived = (statesReach (con.enqueueResponse arrived) arrived &&
        (o.ctx.urls id).cacheFlg.conClose && (o.ctx.urls id).urlFlags.resWrite) := by
      unfold discards
      rw [owner,closes,stored]
      dsimp only
      rw [valid,Bool.true_and]
    unfold responseDiscard
    dsimp only
    cases reach : statesReach (con.enqueueResponse arrived) arrived with
    | false =>
      rw [reach,if_neg Bool.false_ne_true] at chain rest
      rw [if_neg fun now => now.2.1 (congrArg Chain.count chain)]
      have none_ : o.sent = [] := countedSent (o := o) (chain ▸ rfl) |>.trans (congrArg Chain.pkts chain)
      refine ⟨⟨?_,?_⟩,rest ▸ whole⟩
      · rw [silent,none_,rest]
        exact pkts
      · rw [silent,due,reach]
        rfl
    | true =>
      rw [reach,if_pos rfl] at chain rest
      rw [reach,Bool.true_and] at due
      split
      · rename_i now
        rw [now.1,now.2.2] at due
        refine ⟨⟨?_,?_⟩,rest ▸ last⟩
        · dsimp only
          rw [chain,rest]
          exact (congrArg (· ++ _) (List.append_nil _)).trans pieces
        · rw [due]
          dsimp only
          rw [chain,split_.front whole,pkts]
          rfl
      · rename_i kept
        refine ⟨⟨?_,?_⟩,rest ▸ last⟩
        · rw [silent,countedSent (chain ▸ first),chain,rest]
          exact pieces
        · rw [silent,due]
          split
          · rename_i both
            obtain ⟨closes,stored⟩ := Bool.and_eq_true_iff.mp both
            have none_ : o.chain.count = 0 := not_not.mp fun some_ => kept ⟨closes,some_,stored⟩
            have empty : o.chain.pkts.length = 0 := (chain ▸ first : o.chain.counted) ▸ none_
            rw [← pkts,← split_.front whole,← chain]
            exact (List.length_eq_zero_iff.mp empty).symm
          · rfl

section system
variable {s t : World}

def World.counted (s : World) : Prop := ∀ n,(s.cons n).responsePktChain.counted

def World.passes (P : Platform) (s : World) : WorldEvent → Prop
  | .data n .server _ pkts token =>
    Passed (s.cons n) s.ctx pkts token (ngxHttpSnoopingResponseParse P (s.cons n) s.ctx pkts token)
  | _ => True

theorem turnCounted {n : Nat} {con : Con} {ctx : Ctx} (all : s.counted) (mine : con.responsePktChain.counted) :
    (s.turn n con ctx).counted := by
  intro m
  unfold World.turn
  dsimp only
  rcases Decidable.em (m = n) with rfl | other
  · rw [Function.update_self]
    exact mine
  · rw [Function.update_of_ne other]
    exact all m

theorem shutCounted (con : Con) (ctx : Ctx) (side : Side) (counted : con.responsePktChain.counted) :
    (ngxHttpSnoopingShut con ctx side).1.responsePktChain.counted := by
  have left : (con.leave side).responsePktChain.counted := by
    cases side <;> exact counted
  unfold ngxHttpSnoopingShut
  split
  · dsimp only
    split
    · unfold conFree
      dsimp only
      split
      · rfl
      · exact left
    · exact left
  · exact counted

theorem worldPasses {e : WorldEvent} (split_ : CorrectSplit P.getn) (all : s.counted) (moved : WorldMove P s e t) :
    t.counted ∧ s.passes P e := by
  cases moved with
  | create clientAddr localServerAddr free => exact ⟨turnCounted all rfl,trivial⟩
  | @data n side env pkts token live =>
    cases side with
    | client =>
      have back := requestBack (requestCases P env (s.cons n) s.ctx pkts token)
      exact ⟨turnCounted all (back ▸ all n : Chain.counted _),trivial⟩
    | server =>
      obtain ⟨passed,counted⟩ := responsePassed split_ (all n)
      exact ⟨turnCounted all counted,passed⟩
  | @shut n side live => exact ⟨turnCounted all (shutCounted (s.cons n) s.ctx side (all n)),trivial⟩
  | call | section_ | write | clock | config | answer | receive | torn => exact ⟨all,trivial⟩

theorem startCounted (jiffies : Nat) : (World.start jiffies).counted := fun _ => rfl

/-- Whatever other connections and the write task do, a server's packets are sent or queued in their order, except
those split off while the entry of the request is stored under a rule that closes connections: these are freed. -/
theorem responsesPassed (split_ : CorrectSplit P.getn) (jiffies : Nat) (events : List WorldEvent) :
    Along (World.step P) (fun s e _ => s.passes P e) (.start jiffies) events := by
  have kept {s t : World} {e : WorldEvent} (all : s.counted) (_ : True) (next : s.step P e = some t) :
      t.counted ∧ s.passes P e :=
    worldPasses split_ all (worldSteps next)
  exact alongInvariant kept (startCounted jiffies) (alongTrue _ _)

def wholePlatform : Platform where
  getn c token := (efBufEfbToChain (c.pkts.take token),efBufEfbToChain (c.pkts.drop token))
  hz := 100
  addrText _ := []
  mimeOf _ := []

theorem wholeSplit : CorrectSplit wholePlatform.getn := ⟨fun _ => rfl,fun _ => rfl,fun _ => ⟨rfl,rfl⟩⟩

def movieReply : List EfBuf :=
  [⟨0,ascii "HTTP/1.1 200 OK" ++ crlf ++ ascii "Content-Type: video/x-flv" ++ crlf ++ ascii "Content-Length: 2" ++ httpEnd⟩,
    ⟨1,ascii "ab"⟩]

def movieFetch : List WorldEvent :=
  alone 0 2 (.handle (ascii "a/x.flv") .add) ++ [.create 0 1 2]

def movieRequest : WorldEvent :=
  .data 0 .client ⟨1,true⟩ [⟨0,ascii "GET /x.flv HTTP/1.1" ++ crlf ++ ascii "Host: a" ++ httpEnd⟩] 1

theorem responsesPassedMovie : Along (World.step wholePlatform) (fun s e _ => s.passes wholePlatform e) (.start 0)
    (movieFetch ++ [movieRequest,.data 0 .server ⟨1,true⟩ movieReply 1]) :=
  responsesPassed wholeSplit 0 _

def World.forwards (P : Platform) (s : World) (n : Nat) : WorldEvent → Prop
  | .data m .client env pkts token => m = n ∧ (ngxHttpSnoopingRequestParse P env (s.cons n) s.ctx pkts token).sent ≠ []
  | _ => False

def WorldEvent.spares (n : Nat) : WorldEvent → Bool
  | .data m .client .. => m ≠ n
  | .create m .. => m ≠ n
  | _ => true

def ResponsesWhole (P : Platform) : Prop :=
  ∀ {jiffies before s n request later t arrived token},run (World.step P) (.start jiffies) before = some s →
    s.forwards P n request → run (World.step P) s (request :: later) = some t → (∀ e ∈ later,e.spares n = true) →
    (ngxHttpSnoopingResponseParse P (t.cons n) t.ctx arrived token).freed = []

def movieStored : List WorldEvent :=
  .data 0 .server ⟨1,true⟩ (movieReply.take 1) 1 :: alone 1 1 (.setbyId 32767 .ok) ++ passWith [.log,.remove]

def movieOpened : World := (run (World.step wholePlatform) (.start 0) movieFetch).get (by decide +kernel)

def movieCut : World := (run (World.step wholePlatform) movieOpened (movieRequest :: movieStored)).get (by decide +kernel)

theorem responseCut : CorrectSplit wholePlatform.getn ∧ ¬ResponsesWhole wholePlatform := by
  refine ⟨wholeSplit,fun whole => ?_⟩
  have forwarded : movieOpened.forwards wholePlatform 0 movieRequest := ⟨rfl,by decide⟩
  have kept : (ngxHttpSnoopingResponseParse wholePlatform (movieCut.cons 0) movieCut.ctx (movieReply.drop 1) 1).freed = [] :=
    whole (Option.some_get _).symm forwarded (Option.some_get _).symm (by decide)
  have freed : (ngxHttpSnoopingResponseParse wholePlatform (movieCut.cons 0) movieCut.ctx (movieReply.drop 1) 1).freed ≠ [] := by
    decide
  exact freed kept

end system

end MipsElfExec.Snooping
