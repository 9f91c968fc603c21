import MipsElfExec.Snooping.System

/-! The answers of the server: a slot number is all that ties a response to its request,
so an answer that is late enough is taken for the next holder of the slot. -/
namespace MipsElfExec.Snooping
open CString Run

variable {P : Platform}

def UrlEntry.holding (e : UrlEntry) : Bool × Nat × Bytes := (e.urlFlags.res,e.tenancy,e.urlBuf)

-- `since` counts the requests that were sent before each slot came to what it holds.
structure Mail extends World where
  since : UrlId → Nat := fun _ => 0

def Mail.step (P : Platform) (s : Mail) (e : WorldEvent) : Option Mail :=
  (s.toWorld.step P e).map fun t =>
    { t with since := fun id => if (t.ctx.urls id).holding = (s.ctx.urls id).holding then s.since id else t.requests.length }

def Mail.start (jiffies : Nat) : Mail := { World.start jiffies with }

def Mail.sound (s : Mail) (e : WorldEvent) (t : Mail) : Prop :=
  match e with
  | .receive k => ∀ id,(s.ctx.urls id).urlFlags.res = true → (s.ctx.urls id).urlFlags.ngxParseOk = false →
    (t.ctx.urls id).urlFlags.ngxParseOk = true → ∃ a req,s.answers[k]? = some a ∧ s.requests[a.request]? = some req ∧
      a.status = httpSpStatusOk ∧ req.sessionId = id ∧ s.since id ≤ a.request ∧
      req.urlData = (s.ctx.urls id).urlBuf ∧ req.sp2cAction = (s.ctx.urls id).asks
  | .torn => ∀ id,(s.ctx.urls id).urlFlags.ngxParseOk = false → (t.ctx.urls id).urlFlags.ngxParseOk = false
  | _ => True

def Mail.timely (s : Mail) : WorldEvent → Prop
  | .receive k => ∀ a req,s.answers[k]? = some a → s.requests[a.request]? = some req → a.status = httpSpStatusOk →
    (s.ctx.urls req.sessionId).urlFlags.res = true → (s.ctx.urls req.sessionId).urlFlags.ngxWaitResponse = true →
    (s.ctx.urls req.sessionId).urlFlags.ngxParseOk = false → s.since req.sessionId ≤ a.request
  | _ => True

structure Current (s : Mail) : Prop where
  since : ∀ id,s.since id ≤ s.requests.length
  request : ∀ k req,s.requests[k]? = some req → s.since req.sessionId ≤ k →
    (s.ctx.urls req.sessionId).urlFlags.res = true → req.urlData = (s.ctx.urls req.sessionId).urlBuf ∧
      ((s.ctx.urls req.sessionId).urlFlags.ngxParseOk = false → req.sp2cAction = (s.ctx.urls req.sessionId).asks)

theorem asksRule {a b : UrlEntry} (same : a.pcacheRule = b.pcacheRule) : a.asks = b.asks := by
  unfold UrlEntry.asks UrlEntry.cacheFlg
  rw [same]

theorem putHeld {found : Option UrlId} {fill held : UrlEntry → UrlEntry} {e : UrlEntry}
    (kept : ∀ e,(held e).tenancy = e.tenancy ∧ (held e).pcacheRule = e.pcacheRule ∧
      ((held e).urlFlags.ngxParseOk = false → e.urlFlags.ngxParseOk = false))
    (same : (putEntry found fill held e).tenancy = e.tenancy) :
    (putEntry found fill held e).pcacheRule = e.pcacheRule ∧
    ((putEntry found fill held e).urlFlags.ngxParseOk = false → e.urlFlags.ngxParseOk = false) := by
  cases found with
  | some id => exact (kept e).2
  | none =>
    have more : (putEntry none fill held e).tenancy = e.tenancy + 1 := (kept _).1
    exact absurd (more.symm.trans same) (Nat.succ_ne_self _)

theorem fateHolds {s : World} {e : WorldEvent} {id : UrlId} {entry : UrlEntry} (fate : Fate s id e entry)
    (owned : entry.urlFlags.res = true) (same : entry.tenancy = (s.ctx.urls id).tenancy) :
    entry.pcacheRule = (s.ctx.urls id).pcacheRule ∧
    (entry.urlFlags.ngxParseOk = false → (s.ctx.urls id).urlFlags.ngxParseOk = false) := by
  cases fate with
  | same => exact ⟨rfl,fun off => off⟩
  | @mapped n op rest thread mine =>
    cases op with
    | find key => cases mine
    | addNew rule key name => exact putHeld (fun _ => ⟨rfl,rfl,fun off => off⟩) same
    | addMore id => exact ⟨rfl,fun off => off⟩
    | delete id => exact ⟨rfl,fun off => off⟩
    | youkuPut found rule key name => exact putHeld (fun _ => ⟨rfl,rfl,fun off => off⟩) same
    | youkuQueue id => exact ⟨rfl,fun off => off⟩
    | recordNew rule key server path => exact putHeld (fun _ => ⟨rfl,rfl,fun off => off⟩) same
    | recordQueue id => exact ⟨rfl,fun off => off⟩
    | setby id state => cases state <;> exact ⟨rfl,fun off => off⟩
  | touched touched =>
    refine ⟨congrArg Title.pcacheRule touched.title,fun off => ?_⟩
    exact (Bool.or_eq_false_iff.mp (touched.parse.symm.trans off)).1
  | removed hand due => cases owned
  | recorded live read known get target mine =>
    rcases recordCases mine with ⟨_,entry⟩ | ⟨_,_,_,entry⟩
    · rw [entry]
      exact ⟨rfl,fun off => off⟩
    · rw [entry] at same ⊢
      exact putHeld (fun _ => ⟨rfl,rfl,fun off => off⟩) same
  | replied env pkts token live owner kept =>
    have core := congrArg (Core.pcacheRule ∘ Prod.fst) kept
    have served := congrArg (Served.ngxParseOk ∘ Prod.snd) kept
    exact ⟨core,fun off => served.symm.trans off⟩
  | shut frees owner => exact ⟨rfl,fun off => off⟩
  | heard known mine waits => exact ⟨rfl,nofun⟩

theorem worldSends {s t : World} {e : WorldEvent} (moved : WorldMove P s e t) :
    (t.requests = s.requests) ∨ ∃ ev req,e = .task (.write ev) ∧ t.requests = s.requests ++ [req] ∧
      req.urlData = (s.ctx.urls req.sessionId).urlBuf ∧ ((t.ctx.urls req.sessionId).urlFlags.ngxParseOk = false →
        (s.ctx.urls req.sessionId).urlFlags.ngxParseOk = false → req.sp2cAction = (s.ctx.urls req.sessionId).asks) := by
  cases moved with
  | @write e ctx w out wrote =>
    cases out with
    | none => exact Or.inl (List.append_nil _)
    | some out =>
      cases out with
      | send req =>
        obtain ⟨hand,data,action⟩ := writerAsks wrote rfl
        refine Or.inr ⟨e,req,rfl,rfl,data,fun off => action ?_⟩
        rcases writerTouches wrote with ⟨gone,⟨i,hand'⟩,rfl,due,last⟩ | touched
        · rfl
        · have parse := (touched req.sessionId).parse
          rw [hand,beq_self_eq_true,Bool.true_and] at parse
          exact (Bool.or_eq_false_iff.mp (parse.symm.trans off)).2
      | log added url => exact Or.inl (List.append_nil _)
  | _ => exact Or.inl rfl

theorem mailSteps {s t : Mail} {e : WorldEvent} (next : s.step P e = some t) : WorldMove P s.toWorld e t.toWorld ∧
    ∀ id,t.since id = if (t.ctx.urls id).holding = (s.ctx.urls id).holding then s.since id else t.requests.length := by
  obtain ⟨world,moved,same⟩ := Option.map_eq_some_iff.mp next
  subst same
  exact ⟨worldSteps moved,fun _ => rfl⟩

theorem currentStep {s t : Mail} {e : WorldEvent} (current : Current s) (moved : WorldMove P s.toWorld e t.toWorld)
    (since : ∀ id,t.since id =
      if (t.ctx.urls id).holding = (s.ctx.urls id).holding then s.since id else t.requests.length) : Current t := by
  have sends := worldSends moved
  have more : s.requests.length ≤ t.requests.length := by
    rcases sends with same | ⟨_,req,_,same,_⟩
    · rw [same]
    · rw [same,List.length_append]
      exact Nat.le_add_right _ _
  refine ⟨fun id => ?_,fun k req sent recent owned => ?_⟩
  · rw [since]
    split
    · exact Nat.le_trans (current.since id) more
    · exact Nat.le_refl _
  · have few : k < t.requests.length := (List.getElem?_eq_some_iff.mp sent).1
    rw [since] at recent
    split at recent
    · rename_i holding
      injection holding with res rest
      injection rest with tenancy url
      obtain ⟨rule,parsed⟩ := fateHolds (worldFate moved req.sessionId) owned tenancy
      rw [url,asksRule rule]
      have owned' : (s.ctx.urls req.sessionId).urlFlags.res = true := res.symm.trans owned
      have old (mem : s.requests[k]? = some req) : req.urlData = (s.ctx.urls req.sessionId).urlBuf ∧
          ((t.ctx.urls req.sessionId).urlFlags.ngxParseOk = false → req.sp2cAction = (s.ctx.urls req.sessionId).asks) := by
        obtain ⟨data,action⟩ := current.request k req mem recent owned'
        exact ⟨data,fun off => action (parsed off)⟩
      rcases sends with same | ⟨ev,new,rfl,same,data,action⟩
      · exact old (same ▸ sent)
      · rw [same] at sent
        rcases Nat.lt_or_ge k s.requests.length with early | late
        · exact old ((List.getElem?_append_left early).symm.trans sent)
        · have last : k = s.requests.length := by
            rw [same,List.length_append,List.length_singleton] at few
            omega
          rw [last,List.getElem?_concat_length] at sent
          cases Option.some.inj sent
          exact ⟨data,fun off => action off (parsed off)⟩
    · exact absurd recent (Nat.not_le_of_lt few)

theorem heardParsed {s t : World} {k : Nat} (moved : WorldMove P s (.receive k) t) {id : UrlId} :
    ((s.ctx.urls id).urlFlags.ngxParseOk = false ∧ (t.ctx.urls id).urlFlags.ngxParseOk = true) ↔
      ∃ a req,s.answers[k]? = some a ∧ s.requests[a.request]? = some req ∧ a.status = httpSpStatusOk ∧
        req.sessionId = id ∧ (s.ctx.urls id).urlFlags.ngxWaitResponse = true ∧
        (s.ctx.urls id).urlFlags.ngxParseOk = false := by
  constructor
  · rintro ⟨off,parsed⟩
    have fate := worldFate moved id
    generalize t.ctx.urls id = entry at fate parsed
    cases fate with
    | same => cases off.symm.trans parsed
    | @heard k req known mine waits =>
      obtain ⟨a,here,rest⟩ := Option.bind_eq_some_iff.mp known
      obtain ⟨_,sent,same⟩ := Option.map_eq_some_iff.mp rest
      obtain ⟨rfl,ok⟩ := Prod.mk.inj same
      exact ⟨a,_,here,sent,ok,mine,waits,off⟩
  · rintro ⟨a,req,known,sent,ok,rfl,waits,off⟩
    cases moved with
    | @receive k req' status known' =>
      obtain ⟨a',here,rest⟩ := Option.bind_eq_some_iff.mp known'
      cases known.symm.trans here
      obtain ⟨_,sent',same⟩ := Option.map_eq_some_iff.mp rest
      cases sent.symm.trans sent'
      obtain ⟨rfl,rfl⟩ := Prod.mk.inj same
      refine ⟨off,?_⟩
      unfold World.table ngxHttpSp2cRecProcess
      dsimp only
      rw [if_neg (not_not.mpr ok),dif_pos req.sessionId.isLt,if_pos waits,Ctx.setFlags,modifySelf]
      rfl

theorem mailSound {s t : Mail} {e : WorldEvent} (current : Current s) (moved : WorldMove P s.toWorld e t.toWorld) :
    s.sound e t ↔ s.timely e := by
  cases e with
  | receive k =>
    constructor
    · intro sound a req known asked ok owned waits off
      obtain ⟨_,parsed⟩ := heardParsed moved |>.mpr ⟨a,req,known,asked,ok,rfl,waits,off⟩
      obtain ⟨a',req',known',asked',_,_,recent,_⟩ := sound req.sessionId owned off parsed
      cases known.symm.trans known'
      exact recent
    · intro timely id owned off parsed
      obtain ⟨a,req,known,asked,ok,rfl,waits,_⟩ := (heardParsed moved).mp ⟨off,parsed⟩
      have recent := timely a req known asked ok owned waits off
      obtain ⟨data,action⟩ := current.request a.request req asked recent owned
      exact ⟨a,req,known,asked,ok,rfl,recent,data,action off⟩
  | torn =>
    refine iff_of_true (fun id off => ?_) trivial
    have fate := worldFate moved id
    generalize t.ctx.urls id = entry at fate ⊢
    cases fate
    exact off
  | task | create | data | shut | answer => exact Iff.rfl

theorem mailStart (jiffies : Nat) : Current (Mail.start jiffies) := by
  refine ⟨fun _ => Nat.le_refl _,fun k req sent => ?_⟩
  cases sent

/-- An answer is taken only for a request that was sent for the URL of its entry, with the action that the entry
waits for and while it held that URL, exactly when no answer to an older request finds its entry waiting. -/
theorem answersSoundExactly (P : Platform) (jiffies : Nat) (events : List WorldEvent) :
    Along (Mail.step P) Mail.sound (.start jiffies) events ↔
      Along (Mail.step P) (fun s e _ => s.timely e) (.start jiffies) events := by
  refine alongIff (I := Current) (fun current next => ?_) (mailStart jiffies)
  obtain ⟨moved,since⟩ := mailSteps next
  exact ⟨currentStep current moved since,mailSound current moved⟩

def staleAsked : List WorldEvent :=
  .task (.config 1) :: (alone 0 2 (.handle (ascii "a/x.mp4") .add) ++ alone 1 1 (.setbyId 32767 .error) ++ idlePasses 11 ++
    .task (.clock 2000) :: passWith [] ++ alone 2 1 (.setbyId 32767 .ok) ++
    alone 3 2 (.handle (ascii "a/x.mp4") .delete) ++ idlePasses 10 ++ passWith [.log,.remove] ++
    alone 4 2 (.handle (ascii "b/y.mp4") .add) ++ alone 5 1 (.setbyId 32767 .error) ++ idlePasses 11 ++
    .task (.clock 4000) :: passWith [] ++ [.answer 0 httpSpStatusOk])

theorem staleTaken : (run (Mail.step testPlatform) (.start 0) staleAsked).bind (fun s =>
    (s.step testPlatform (.receive 0)).map fun t => ((s.ctx.urls 32767).urlFlags.res,(s.ctx.urls 32767).urlFlags.ngxParseOk,
      (t.ctx.urls 32767).urlFlags.ngxParseOk,s.answers,s.since 32767)) =
    some (true,false,true,[⟨0,httpSpStatusOk⟩],1) := by decide +kernel

theorem answerUnsound : ¬Along (Mail.step testPlatform) Mail.sound (.start 0) (staleAsked ++ [.receive 0]) := by
  intro all
  obtain ⟨s,path,rest⟩ := Option.bind_eq_some_iff.mp staleTaken
  obtain ⟨t,next,last⟩ := Option.map_eq_some_iff.mp rest
  injection last with owned last
  injection last with off last
  injection last with parsed last
  injection last with answers since
  obtain ⟨a,req,known,_,_,_,recent,_⟩ := (alongRest all path t next).1 32767 owned off parsed
  rw [answers] at known
  cases known
  rw [since] at recent
  exact absurd recent (by decide)

end MipsElfExec.Snooping
