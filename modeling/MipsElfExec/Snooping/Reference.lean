import MipsElfExec.Snooping.System

/-! Entries that connections refer to. A connection keeps the entry of its latest GET
until it is shut, while the write task removes an entry by its action alone. -/
namespace MipsElfExec.Snooping
open CString Run

variable {P : Platform}

-- `leases` is the tenancy of the entry that each connection came to refer to.
structure Ties extends World where
  leases : Nat → Nat := fun _ => 0

def Ties.leased (s : Ties) (e : WorldEvent) (t : World) : Nat → Nat :=
  match e with
  | .data n .client env pkts token =>
    if (s.cons n).files ⟨env,s.ctx,pkts,token⟩ then
      Function.update s.leases n (((t.cons n).conUrl.map fun id => (t.ctx.urls id).tenancy).getD 0)
    else s.leases
  | _ => s.leases

def Ties.step (P : Platform) (s : Ties) (e : WorldEvent) : Option Ties :=
  (s.toWorld.step P e).map fun t => { t with leases := s.leased e t }

def Ties.start (jiffies : Nat) : Ties := { World.start jiffies with }

def Ties.safe (s : Ties) (e : WorldEvent) (t : Ties) : Prop :=
  match e with
  | .task (.write .remove) => ∀ i id,s.writer = .removing i id → (s.ctx.urls id).urlAction = some .delete →
    ∀ n,¬s.refers n id
  | .data n .server _ _ _ | .shut n _ => ∀ id,t.ctx.urls id ≠ s.ctx.urls id → (s.cons n).conUrl = some id ∧
    (s.ctx.urls id).urlFlags.res = true ∧ (s.ctx.urls id).tenancy = s.leases n
  | _ => True

def deletes : TableProg → Option UrlId
  | .step (.delete id) _ => some id
  | _ => none

def Ties.sparesFor (s : Ties) (n : Nat) : WorldEvent → Prop
  | .task (.advance m) => ∀ thread ∈ s.threads[m]?,∀ id ∈ deletes thread,¬s.refers n id
  | .data m .client env pkts token => ∀ text ∈ (s.cons m).reads ⟨env,s.ctx,pkts,token⟩ .client,
    ∀ head ∈ requestHead text,head.method = .get → ∀ target ∈ recordTarget head.serverName head.resUrl,
    ∀ id ∈ ngxHttpSnoopingUrlHashFind s.ctx target.2,(s.ctx.urls id).urlAction ≠ some .delete
  | _ => True

def Ties.spares (s : Ties) (e : WorldEvent) : Prop := ∀ n,s.sparesFor n e

def UrlEntry.serves (e : UrlEntry) (lease : Nat) : Prop :=
  e.urlFlags.res = true ∧ e.urlAction ≠ some .delete ∧ e.tenancy = lease

structure Tied (s : Ties) : Prop where
  linked : Linked s.ctx
  serves : ∀ n id,s.refers n id → (s.ctx.urls id).serves (s.leases n)

theorem servesTitle {e e' : UrlEntry} {lease : Nat} (res : e'.urlFlags.res = e.urlFlags.res)
    (action : e'.urlAction = e.urlAction) (tenancy : e'.tenancy = e.tenancy) (serves : e.serves lease) : e'.serves lease := by
  unfold UrlEntry.serves
  rw [res,action,tenancy]
  exact serves

theorem servesPut {ctx : Ctx} {found : Option UrlId} {id : UrlId} {fill held : UrlEntry → UrlEntry} {lease : Nat}
    (L : Linked ctx) (mine : found.or (urlNextFree ctx) = some id) (serves : (ctx.urls id).serves lease)
    (kept : (ctx.urls id).serves lease → (held (ctx.urls id)).serves lease) :
    (putEntry found fill held (ctx.urls id)).serves lease := by
  cases found with
  | some _ => exact kept serves
  | none => exact (Bool.false_ne_true ((nextFreeIdle L mine).symm.trans serves.1)).elim

theorem fateServes {s : World} {e : WorldEvent} {id : UrlId} {entry : UrlEntry} {lease n : Nat} (L : Linked s.ctx)
    (fate : Fate s id e entry) (refers : s.refers n id) (serves : (s.ctx.urls id).serves lease)
    (spares : ∀ m id next,e = .task (.advance m) → s.threads[m]? = some (.step (.delete id) next) → ∀ n,¬s.refers n id) :
    entry.serves lease := by
  have added {e : UrlEntry} (serves : e.serves lease) : ({ e with urlAction := some .add } : UrlEntry).serves lease :=
    ⟨serves.1,nofun,serves.2.2⟩
  cases fate with
  | same => exact serves
  | @mapped m op rest thread mine =>
    cases op with
    | find key => cases mine
    | addNew rule key name => exact servesPut L mine serves (servesTitle rfl rfl rfl)
    | addMore id => exact servesTitle rfl rfl rfl serves
    | delete id' =>
      cases mine
      exact (spares m _ rest rfl thread n refers).elim
    | youkuPut found rule key name => exact servesPut L mine serves (servesTitle rfl rfl rfl)
    | youkuQueue id => exact servesTitle rfl rfl rfl serves
    | recordNew rule key server path => exact servesPut L mine serves fun serves => added serves
    | recordQueue id => exact servesTitle rfl rfl rfl serves
    | setby id state =>
      cases state with
      | ok => exact added serves
      | error => exact servesTitle rfl rfl rfl serves
      | init => exact servesTitle rfl rfl rfl serves
      | ing => exact servesTitle rfl rfl rfl serves
  | touched touched =>
    have title := touched.title
    exact servesTitle (congrArg Title.res title) (congrArg Title.urlAction title) (congrArg Title.tenancy title) serves
  | removed hand due => exact (serves.2.1 due).elim
  | recorded live read known get target mine =>
    rcases recordCases mine with ⟨_,same⟩ | ⟨_,_,free,same⟩
    · rw [same]
      exact servesTitle rfl rfl rfl serves
    · rw [same]
      have mine : none.or (urlNextFree s.ctx) = some id := free
      exact servesTitle rfl rfl rfl (servesPut L mine serves fun serves => added serves)
  | @replied m entry env pkts token live owner kept =>
    have core := congrArg Prod.fst kept
    exact servesTitle (congrArg (Place.res ∘ Core.place) core) (congrArg Core.urlAction core) (congrArg Core.tenancy core) serves
  | shut frees owner => exact servesTitle rfl rfl rfl serves
  | heard known mine waits => exact servesTitle rfl rfl rfl serves

theorem filingServes {s : Ties} {e : WorldEvent} {n : Nat} {id : UrlId} {entry : UrlEntry} (L : Linked s.ctx)
    (filing : Filing s.toWorld n id e entry) (spares : s.spares e) : entry.serves entry.tenancy := by
  cases filing with
  | @recorded env pkts token text head rule key live read known get target mine =>
    rcases recordCases mine with ⟨found,same⟩ | ⟨_,_,_,same⟩
    · rw [same]
      exact ⟨(urlFound L found).1,spares n text read head known get (rule,key) target id found,rfl⟩
    · rw [same]
      exact ⟨rfl,nofun,rfl⟩

theorem tiesSteps {s t : Ties} {e : WorldEvent} (next : s.step P e = some t) :
    WorldMove P s.toWorld e t.toWorld ∧ t.leases = s.leased e t.toWorld := by
  obtain ⟨world,moved,same⟩ := Option.map_eq_some_iff.mp next
  subst same
  exact ⟨worldSteps moved,rfl⟩

theorem leasedKept {s : Ties} {e : WorldEvent} {t : World} {n : Nat} (quiet : ∀ env pkts token,
    e = .data n .client env pkts token → (s.cons n).files ⟨env,s.ctx,pkts,token⟩ = false) : s.leased e t n = s.leases n := by
  unfold Ties.leased
  split
  · rename_i m env pkts token
    split
    · rename_i files
      rcases Decidable.em (n = m) with rfl | other
      · exact (Bool.false_ne_true ((quiet env pkts token rfl).symm.trans files)).elim
      · exact Function.update_of_ne other _ _
    · rfl
  · rfl

theorem leasedFiling {s : Ties} {e : WorldEvent} {t : World} {n : Nat} {id : UrlId} {entry : UrlEntry}
    (filing : Filing s.toWorld n id e entry) (refers : t.refers n id) : s.leased e t n = (t.ctx.urls id).tenancy := by
  cases filing with
  | @recorded env pkts token text head rule key live read known get target mine =>
    have files : (s.cons n).files ⟨env,s.ctx,pkts,token⟩ = true := by
      unfold Con.files
      rw [read,Option.bind_some,known]
      exact decide_eq_true get
    unfold Ties.leased
    dsimp only
    rw [if_pos files,Function.update_self,refers.2]
    rfl

theorem tiedStep {s t : Ties} {e : WorldEvent} (tied : Tied s) (spares : s.spares e) (next : s.step P e = some t) : Tied t := by
  obtain ⟨moved,leases⟩ := tiesSteps next
  refine ⟨worldLinked moved tied.linked,fun n id refers => ?_⟩
  rw [leases]
  rcases worldRefers moved refers with ⟨before,quiet⟩ | filing
  · rw [leasedKept quiet]
    refine fateServes tied.linked (worldFate moved id) before (tied.serves n id before) fun m id rest event thread n => ?_
    subst event
    exact spares n _ thread id rfl
  · rw [leasedFiling filing refers]
    exact filingServes tied.linked filing spares

theorem tiedSafe {s t : Ties} {e : WorldEvent} (tied : Tied s) (next : s.step P e = some t) : s.safe e t := by
  obtain ⟨moved,_⟩ := tiesSteps next
  have changed {n : Nat} {id : UrlId} (live : (s.cons n).conFlags = true) (owner : (s.cons n).conUrl = some id) :
      (s.cons n).conUrl = some id ∧ (s.ctx.urls id).urlFlags.res = true ∧ (s.ctx.urls id).tenancy = s.leases n :=
    ⟨owner,(tied.serves n id ⟨live,owner⟩).1,(tied.serves n id ⟨live,owner⟩).2.2⟩
  unfold Ties.safe
  split
  · intro i id hand due n refers
    exact (tied.serves n id refers).2.1 due
  · intro id differ
    have fate := worldFate moved id
    generalize t.ctx.urls id = entry at fate differ
    cases fate with
    | same => exact (differ rfl).elim
    | replied env pkts token live owner kept => exact changed live owner
  · intro id differ
    have fate := worldFate moved id
    generalize t.ctx.urls id = entry at fate differ
    cases fate with
    | same => exact (differ rfl).elim
    | shut frees owner => exact changed (Bool.and_eq_true_iff.mp frees).2 owner
  · trivial

theorem tiedStart (jiffies : Nat) : Tied (Ties.start jiffies) := by
  refine ⟨linkedInit jiffies,fun n id refers => ?_⟩
  cases refers.1

/-- In every run in which deletion spares the entries that connections refer to, no entry that an open connection
refers to is removed, and responses and shutdowns change an entry only for the URL that it was referred to for. -/
theorem referencesKept (P : Platform) (jiffies : Nat) (events : List WorldEvent)
    (spares : Along (Ties.step P) (fun s e _ => s.spares e) (.start jiffies) events) :
    Along (Ties.step P) Ties.safe (.start jiffies) events :=
  alongInvariant (I := Tied) (P := fun s e _ => s.spares e)
    (fun tied spares next => ⟨tiedStep tied spares next,tiedSafe tied next⟩) (tiedStart jiffies) spares

section first
variable {s t : Ties} {e : WorldEvent}

def WorldEvent.about (n : Nat) : WorldEvent → Bool
  | .create m _ _ | .data m _ _ _ _ | .shut m _ => m == n
  | _ => true

theorem othersShut (shut : ∀ n,n ≠ 0 → (s.cons n).conFlags = false) (about : e.about 0 = true) (next : s.step P e = some t)
    (n : Nat) (other : n ≠ 0) : (t.cons n).conFlags = false := by
  obtain ⟨moved,_⟩ := tiesSteps next
  have apart {m : Nat} (first : (m == 0) = true) : n ≠ m := fun same => other (same.trans (beq_iff_eq.mp first))
  have turned {m : Nat} {con : Con} {ctx : Ctx} (first : (m == 0) = true) :
      ((s.toWorld.turn m con ctx).cons n).conFlags = false := by
    unfold World.turn
    dsimp only
    rw [Function.update_of_ne (apart first)]
    exact shut n other
  generalize t.toWorld = world at moved
  cases moved with
  | create | data | shut => exact turned about
  | call | section_ | write | clock | config | answer | receive | torn => exact shut n other

theorem sparesFirst (shut : ∀ n,n ≠ 0 → (s.cons n).conFlags = false) (first : s.sparesFor 0 e) : s.spares e := by
  intro n
  rcases Nat.eq_zero_or_pos n with rfl | other
  · exact first
  cases e with
  | task e =>
    cases e with
    | advance m => exact fun thread known id mine refers => Bool.noConfusion ((shut n other.ne').symm.trans refers.1)
    | call | write | clock | config => trivial
  | data m side env pkts token =>
    cases side with
    | client => exact first
    | server => trivial
  | create | shut | answer | receive | torn => trivial

instance decidableRefers (s : World) (n : Nat) (id : UrlId) : Decidable (s.refers n id) :=
  inferInstanceAs (Decidable (_ ∧ _))

instance decidableUnmarked (s : Ties) (head : RequestHead) : Decidable (head.method = .get →
    ∀ target ∈ recordTarget head.serverName head.resUrl,∀ id ∈ ngxHttpSnoopingUrlHashFind s.ctx target.2,
      (s.ctx.urls id).urlAction ≠ some .delete) :=
  have (target : Rule × Bytes) := decidableNamed (ngxHttpSnoopingUrlHashFind s.ctx target.2)
    fun id => (s.ctx.urls id).urlAction ≠ some .delete
  inferInstance

instance decidableSpares (s : Ties) (n : Nat) : DecidablePred (s.sparesFor n)
  | .task (.advance m) =>
    have (thread : TableProg) := decidableNamed (deletes thread) fun id => ¬s.refers n id
    inferInstanceAs (Decidable (∀ thread ∈ s.threads[m]?,_))
  | .data m .client env pkts token => inferInstanceAs (Decidable
    (∀ text ∈ (s.cons m).reads ⟨env,s.ctx,pkts,token⟩ .client,∀ head ∈ requestHead text,_))
  | .task (.call _) | .task (.write _) | .task (.clock _) | .task (.config _) | .create _ _ _ | .data _ .server _ _ _
  | .shut _ _ | .answer _ _ | .receive _ | .torn => .isTrue trivial

end first

def deletedApart : List WorldEvent :=
  alone 0 2 (.handle (ascii "a/x.mp4") .add) ++ alone 1 2 (.handle (ascii "a/y.mp4") .add) ++ [.create 0 1 2,
    .data 0 .client ⟨1,true⟩ [⟨0,ascii "GET /x.mp4 HTTP/1.1" ++ crlf ++ ascii "Host: a" ++ httpEnd⟩] 1] ++
  alone 2 1 (.setbyId 32766 .ok) ++ alone 3 2 (.handle (ascii "a/y.mp4") .delete) ++ passWith [.log,.remove] ++
  [.data 0 .server ⟨1,true⟩ [⟨1,ascii "HTTP/1.1 404 Not Found" ++ httpEnd⟩] 1,.shut 0 .client,.shut 0 .server]

theorem deletedApartKept : Along (Ties.step testPlatform) Ties.safe (.start 0) deletedApart := by
  have first : Along (Ties.step testPlatform) (fun s e _ => s.sparesFor 0 e ∧ e.about 0 = true) (.start 0) deletedApart := by
    decide
  refine referencesKept testPlatform 0 deletedApart ?_
  refine alongInvariant (I := fun s => ∀ n,n ≠ 0 → (s.cons n).conFlags = false) (fun shut both next => ?_) (fun _ _ => rfl) first
  exact ⟨othersShut shut both.2 next,sparesFirst shut both.1⟩

def deletedInUse : List WorldEvent :=
  alone 0 2 (.handle (ascii "a/x.mp4") .add) ++ [.create 0 1 2,
    .data 0 .client ⟨1,true⟩ [⟨0,ascii "GET /x.mp4 HTTP/1.1" ++ crlf ++ ascii "Host: a" ++ httpEnd⟩] 1] ++
  alone 1 1 (.setbyId 32767 .ok) ++ alone 2 2 (.handle (ascii "a/x.mp4") .delete) ++
  ([.begin true,.turn,.work .saved,.log] : List WriterEvent).map fun e => .task (.write e)

theorem deletedInUseEnd : (run (Ties.step testPlatform) (.start 0) deletedInUse).bind (fun s =>
    (s.step testPlatform (.task (.write .remove))).map fun _ =>
      (s.writer,(s.ctx.urls 32767).urlAction,(s.cons 0).conFlags,(s.cons 0).conUrl)) =
    some (.removing 1 32767,some .delete,true,some 32767) := by decide

theorem removedInUse : ¬Along (Ties.step testPlatform) Ties.safe (.start 0) (deletedInUse ++ [.task (.write .remove)]) := by
  intro all
  obtain ⟨s,path,rest⟩ := Option.bind_eq_some_iff.mp deletedInUseEnd
  obtain ⟨t,next,last⟩ := Option.map_eq_some_iff.mp rest
  injection last with hand last
  injection last with due last
  injection last with live owner
  exact (alongRest all path t next).1 1 32767 hand due 0 ⟨live,owner⟩

end MipsElfExec.Snooping
