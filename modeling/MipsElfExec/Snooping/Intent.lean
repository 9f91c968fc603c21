import MipsElfExec.Snooping.System

/-! Adding and deleting. What is to become of an entry is one field that requests for its URL
share with other writers; it follows the latest request as long as none of them comes between. -/
namespace MipsElfExec.Snooping
open CString Run

variable {P : Platform}

def TableOp.asks (ctx : Ctx) (call : Option TableCall) : TableOp → Option (UrlId × C2spAction)
  | .addNew .. => (urlNextFree ctx).map fun id => (id,.add)
  | .addMore id =>
    match call with
    | some (.handle ..) => some (id,.add)
    | _ => none
  | .delete id => some (id,.delete)
  | _ => none

def World.wants (s : World) (n : Nat) : Option (UrlId × C2spAction) :=
  match s.threads[n]? with
  | some (.step op _) => op.asks s.ctx s.calls[n]?
  | _ => none

-- `last` is the latest of the two kinds of request for what a slot holds.
structure Intents extends World where
  last : UrlId → Option C2spAction := fun _ => none

def Intents.after (s : Intents) : WorldEvent → UrlId → Option C2spAction
  | .task (.advance n) =>
    match s.wants n with
    | some (id,action) => Function.update s.last id (some action)
    | none => s.last
  | .task (.write .remove) =>
    match s.writer with
    | .removing _ id => if (s.ctx.urls id).urlAction = some .delete then Function.update s.last id none else s.last
    | _ => s.last
  | _ => s.last

def Intents.step (P : Platform) (s : Intents) (e : WorldEvent) : Option Intents :=
  (s.toWorld.step P e).map fun t => { t with last := s.after e }

def Intents.start (jiffies : Nat) : Intents := { World.start jiffies with }

def Intents.wins (P : Platform) (s : Intents) : WorldEvent → Prop
  | .task (.write .log) => ∀ i id url,s.writer = .logging i id →
    s.toTasks.out P.hz (.write .log) = some (.log true url) → s.last id ≠ some .delete
  | .task (.write .remove) => ∀ i id,s.writer = .removing i id → (s.ctx.urls id).urlAction = some .delete →
    s.last id ≠ some .add
  | _ => True

def TableOp.renews : TableOp → Bool
  | .recordNew .. | .setby _ .ok => true
  | _ => false

def World.renewed (s : World) (n : Nat) : Option UrlId :=
  match s.threads[n]? with
  | some (.step op _) => if op.renews then op.target s.ctx else none
  | _ => none

def Con.renewed (con : Con) (a : Arrival) : Option UrlId :=
  ((con.reads a .client).bind requestHead).bind fun head =>
    if head.method = .get then
      (recordTarget head.serverName head.resUrl).bind fun (rule,key) =>
        if urlKnown a.ctx key then none else recordResult a.ctx rule key
    else none

def Intents.heeds (s : Intents) : WorldEvent → Prop
  | .task (.advance n) => (∀ id,s.wants n = some (id,.add) → (s.ctx.urls id).urlAction ≠ some .delete) ∧
    ∀ id,s.renewed n = some id → s.last id ≠ some .delete
  | .data n .client env pkts token => ∀ id,(s.cons n).renewed ⟨env,s.ctx,pkts,token⟩ = some id → s.last id ≠ some .delete
  | _ => True

def Meant (last action : Option C2spAction) : Prop :=
  (last = some .add → action ≠ some .delete) ∧ (last = some .delete → action = some .delete)

def Intents.meant (s : Intents) : Prop := ∀ id,Meant (s.last id) (s.ctx.urls id).urlAction

section meant
variable {last action action' : UrlId → Option C2spAction}

theorem renewMeant (good : ∀ id,Meant (last id) (action id)) {target : Option UrlId}
    (marks : ∀ id,action' id = if target = some id then some .add else action id) :
    (∀ id,Meant (last id) (action' id)) ↔ ∀ id,target = some id → last id ≠ some .delete := by
  constructor
  · intro all id mine deleted
    have now := (all id).2 deleted
    rw [marks,if_pos mine] at now
    cases now
  · intro spares id
    rw [marks]
    split
    · rename_i mine
      exact ⟨nofun,fun deleted => (spares id mine deleted).elim⟩
    · exact good id

theorem askMeant (good : ∀ id,Meant (last id) (action id)) (id : UrlId) {asked : C2spAction}
    (marks : ∀ j,action' j = if j = id then (if asked = .delete then some .delete else action j) else action j)
    (kind : asked = .add ∨ asked = .delete) :
    (∀ j,Meant (Function.update last id (some asked) j) (action' j)) ↔ (asked = .add → action id ≠ some .delete) := by
  have others (j : UrlId) (other : j ≠ id) : Meant (Function.update last id (some asked) j) (action' j) := by
    rw [Function.update_of_ne other,marks,if_neg other]
    exact good j
  have mine := marks id
  rw [if_pos rfl] at mine
  constructor
  · intro all added
    have now := (all id).1
    rw [Function.update_self,mine,added,if_neg (by decide)] at now
    exact now rfl
  · intro fresh j
    rcases Decidable.em (j = id) with rfl | other
    · rw [Function.update_self,mine]
      rcases kind with rfl | rfl
      · exact ⟨fun _ => fresh rfl,nofun⟩
      · exact ⟨nofun,fun _ => rfl⟩
    · exact others j other

end meant

section steps
variable {s t : Intents}

theorem sectionMeant {n : Nat} {op : TableOp} {rest : Option UrlId → TableProg} (good : s.meant)
    (thread : s.threads[n]? = some (.step op rest)) :
    (∀ id,Meant (s.after (.task (.advance n)) id) ((op.exec s.ctx).2.urls id).urlAction) ↔ s.heeds (.task (.advance n)) := by
  have still (asks : s.wants n = none) (none_ : s.renewed n = none)
      (same : ∀ id,((op.exec s.ctx).2.urls id).urlAction = (s.ctx.urls id).urlAction) :
      (∀ id,Meant (s.after (.task (.advance n)) id) ((op.exec s.ctx).2.urls id).urlAction) ↔
        s.heeds (.task (.advance n)) := by
    unfold Intents.after Intents.heeds
    dsimp only
    rw [asks,none_]
    refine iff_of_true (fun id => ?_) ⟨nofun,nofun⟩
    rw [same]
    exact good id
  have renew (asks : s.wants n = none) (marks : ∀ id,((op.exec s.ctx).2.urls id).urlAction =
      if s.renewed n = some id then some .add else (s.ctx.urls id).urlAction) :
      (∀ id,Meant (s.after (.task (.advance n)) id) ((op.exec s.ctx).2.urls id).urlAction) ↔
        s.heeds (.task (.advance n)) := by
    unfold Intents.after Intents.heeds
    dsimp only
    rw [asks]
    exact (renewMeant good marks).trans ⟨fun spares => ⟨nofun,spares⟩,And.right⟩
  have ask {id : UrlId} {action : C2spAction} (kind : action = .add ∨ action = .delete) (asks : s.wants n = some (id,action))
      (none_ : s.renewed n = none) (marks : ∀ j,((op.exec s.ctx).2.urls j).urlAction =
        if j = id then (if action = .delete then some .delete else (s.ctx.urls j).urlAction) else (s.ctx.urls j).urlAction) :
      (∀ id,Meant (s.after (.task (.advance n)) id) ((op.exec s.ctx).2.urls id).urlAction) ↔
        s.heeds (.task (.advance n)) := by
    unfold Intents.after Intents.heeds
    dsimp only
    rw [asks,none_]
    refine (askMeant good id marks kind).trans ⟨fun fresh => ⟨fun j same => ?_,nofun⟩,fun heeds added => ?_⟩
    · cases same
      exact fresh rfl
    · exact heeds.1 id (added ▸ rfl)
  have entry (id : UrlId) := opEntry op s.ctx id
  have wants : s.wants n = op.asks s.ctx s.calls[n]? := by
    unfold World.wants
    rw [thread]
  have renewed : s.renewed n = if op.renews then op.target s.ctx else none := by
    unfold World.renewed
    rw [thread]
  cases op with
  | find key => exact still wants renewed fun id => rfl
  | addNew rule key name =>
    cases free : urlNextFree s.ctx with
    | none =>
      refine still (wants.trans ?_) renewed fun id => ?_
      · unfold TableOp.asks
        rw [free]
        rfl
      · rw [entry,if_neg (by unfold TableOp.target; rw [free]; exact nofun)]
    | some j =>
      have asks : s.wants n = some (j,.add) := by
        rw [wants]
        unfold TableOp.asks
        rw [free]
        rfl
      refine ask (.inl rfl) asks renewed fun id => ?_
      change _ = if id = j then (s.ctx.urls id).urlAction else (s.ctx.urls id).urlAction
      rw [ite_self,entry]
      split <;> rfl
  | addMore j =>
    cases call : s.calls[n]? with
    | none => exact still (wants.trans (by rw [call]; rfl)) renewed fun id => by rw [entry]; split <;> rfl
    | some call' =>
      cases call' with
      | handle name action =>
        have asks : s.wants n = some (j,.add) := wants.trans (by rw [call]; rfl)
        refine ask (.inl rfl) asks renewed fun id => ?_
        change _ = if id = j then (s.ctx.urls id).urlAction else (s.ctx.urls id).urlAction
        rw [ite_self,entry]
        split <;> rfl
      | youku | record | setbyId =>
        exact still (wants.trans (by rw [call]; rfl)) renewed fun id => by rw [entry]; split <;> rfl
  | delete j =>
    refine ask (.inr rfl) wants renewed fun id => ?_
    rw [entry,if_pos rfl]
    unfold TableOp.target
    rw [targetIf]
    split <;> rfl
  | youkuPut found rule key name =>
    refine still wants renewed fun id => ?_
    rw [entry]
    split
    · cases found <;> rfl
    · rfl
  | youkuQueue j => exact still wants renewed fun id => by rw [entry]; split <;> rfl
  | recordNew rule key server path =>
    have target : s.renewed n = (TableOp.recordNew rule key server path).target s.ctx := renewed
    refine renew wants fun id => ?_
    rw [entry,target]
    rcases Decidable.em ((TableOp.recordNew rule key server path).target s.ctx = some id) with mine | other
    · rw [if_pos mine,if_pos mine]
      rfl
    · rw [if_neg other,if_neg other]
  | recordQueue j => exact still wants renewed fun id => by rw [entry]; split <;> rfl
  | setby j state =>
    cases state with
    | ok =>
      have target : s.renewed n = (TableOp.setby j .ok).target s.ctx := renewed
      refine renew wants fun id => ?_
      rw [entry,target]
      rcases Decidable.em ((TableOp.setby j .ok).target s.ctx = some id) with mine | other
      · rw [if_pos mine,if_pos mine]
        rfl
      · rw [if_neg other,if_neg other]
    | error | init | ing => exact still wants renewed fun id => by rw [entry]; split <;> rfl

theorem fateAction {s : World} {e : WorldEvent} {id : UrlId} {entry : UrlEntry} (fate : Fate s id e entry)
    (section_ : ∀ n,e ≠ .task (.advance n)) (request : ∀ n env pkts token,e ≠ .data n .client env pkts token) :
    entry.urlAction = (s.ctx.urls id).urlAction := by
  cases fate with
  | same => rfl
  | mapped thread mine => exact (section_ _ rfl).elim
  | touched touched => exact congrArg Title.urlAction touched.title
  | removed hand due => rfl
  | recorded live read known get target mine => exact (request _ _ _ _ rfl).elim
  | replied env pkts token live owner kept => exact congrArg (Core.urlAction ∘ Prod.fst) kept
  | shut frees owner => rfl
  | heard known mine waits => rfl

theorem requestAction (P : Platform) (con : Con) (a : Arrival) (id : UrlId) :
    ((ngxHttpSnoopingRequestParse P a.env con a.ctx a.pkts a.token).ctx.urls id).urlAction =
      if con.renewed a = some id then some .add else (a.ctx.urls id).urlAction := by
  have quiet {o : Outcome} (table : o.ctx = a.ctx) (none_ : con.renewed a = none) :
      (o.ctx.urls id).urlAction = if con.renewed a = some id then some .add else (a.ctx.urls id).urlAction := by
    rw [table,none_,if_neg nofun]
  have filed := requestFiled P con a
  generalize ngxHttpSnoopingRequestParse P a.env con a.ctx a.pkts a.token = o at filed ⊢
  unfold Con.renewed at quiet ⊢
  cases filed with
  | waits none_ url table => exact quiet table (by rw [none_]; rfl)
  | bad read bad url table => exact quiet table (by rw [read,Option.bind_some,bad]; rfl)
  | bodied read known other url table => exact quiet table (by rw [read,Option.bind_some,known]; exact if_neg other)
  | @recorded text head hash read known get url table =>
    rw [read,Option.bind_some,known,Option.bind_some,if_pos get,table]
    cases target : recordTarget head.serverName head.resUrl with
    | none =>
      dsimp only
      rw [recordNone target]
      exact (if_neg nofun).symm
    | some filing_ =>
      obtain ⟨rule,key⟩ := filing_
      have urls := (recordUrls target a.ctx).2 id
      dsimp only
      rw [urls,Option.bind_some]
      dsimp only
      rcases Decidable.em (recordResult a.ctx rule key = some id) with mine | other
      · rw [if_pos mine]
        unfold urlKnown
        rcases recordCases mine with ⟨found,entry⟩ | ⟨new,_,_,entry⟩
        · rw [entry,found]
          exact (if_neg nofun).symm
        · rw [entry,new]
          exact (if_pos mine).symm
      · rw [if_neg other]
        refine (if_neg fun now => other ?_).symm
        split at now
        · cases now
        · exact now

theorem intentsSteps {e : WorldEvent} (next : s.step P e = some t) :
    WorldMove P s.toWorld e t.toWorld ∧ t.last = s.after e := by
  obtain ⟨world,moved,same⟩ := Option.map_eq_some_iff.mp next
  subst same
  exact ⟨worldSteps moved,rfl⟩

theorem removedMeant (good : s.meant) {action : UrlId → Option C2spAction}
    (same : ∀ id,action id = (s.ctx.urls id).urlAction) (id : UrlId) :
    Meant (s.after (.task (.write .remove)) id) (action id) := by
  have kept : Meant (s.last id) (action id) := (same id).symm ▸ good id
  unfold Intents.after
  cases hand : s.writer with
  | removing i gone =>
    dsimp only
    rcases Decidable.em ((s.ctx.urls gone).urlAction = some .delete) with due | other
    · rw [if_pos due]
      rcases Decidable.em (id = gone) with rfl | apart
      · rw [Function.update_self]
        exact ⟨nofun,nofun⟩
      · rw [Function.update_of_ne apart]
        exact kept
    · rw [if_neg other]
      exact kept
  | idle | pass | took | calling | logging => exact kept

theorem intentsMeant {e : WorldEvent} (good : s.meant) (next : s.step P e = some t) : t.meant ↔ s.heeds e := by
  obtain ⟨moved,last⟩ := intentsSteps next
  have fate (id : UrlId) := worldFate moved id
  unfold Intents.meant
  rw [last]
  have quiet (section_ : ∀ n,e ≠ .task (.advance n)) (request : ∀ n env pkts token,e ≠ .data n .client env pkts token)
      (id : UrlId) : (t.ctx.urls id).urlAction = (s.ctx.urls id).urlAction :=
    fateAction (fate id) section_ request
  have still (same : ∀ id,(t.ctx.urls id).urlAction = (s.ctx.urls id).urlAction) (id : UrlId) :
      Meant (s.last id) (t.ctx.urls id).urlAction :=
    (same id).symm ▸ good id
  generalize t.toWorld = world at moved quiet still
  cases moved with
  | @section_ n op rest thread => exact sectionMeant good thread
  | @write e ctx w out wrote =>
    cases e with
    | remove => exact iff_of_true (removedMeant good (quiet nofun nofun)) trivial
    | begin | turn | work | answer | log => exact iff_of_true (still (quiet nofun nofun)) trivial
  | @data n side env pkts token live =>
    cases side with
    | client => exact renewMeant good (requestAction P (s.cons n) ⟨env,s.ctx,pkts,token⟩)
    | server => exact iff_of_true (still (quiet nofun nofun)) trivial
  | call | clock | config | create | shut | answer | receive | torn =>
    exact iff_of_true (still (quiet nofun nofun)) trivial

theorem meantWins {e : WorldEvent} (good : s.meant) : s.wins P e := by
  unfold Intents.wins
  split
  · intro i id url hand logged deleted
    unfold Tasks.out at logged
    rw [hand] at logged
    have added : ((s.ctx.urls id).urlAction == some .add) = true := by
      injection logged with same
      injection same
    cases ((good id).2 deleted).symm.trans (beq_iff_eq.mp added)
  · exact fun i id _ deleted added => (good id).1 added deleted
  · trivial

/-- In every run in which ADD finds no deletion pending and nobody else marks an entry deleted last as added, a pass
removes nothing that was added last and logs nothing as added that was deleted last. -/
theorem lastRequestWins (P : Platform) (jiffies : Nat) (events : List WorldEvent) :
    (Along (Intents.step P) (fun s e _ => s.heeds e) (.start jiffies) events →
      Along (Intents.step P) (fun s e _ => s.wins P e) (.start jiffies) events) ∧
    (Along (Intents.step P) (fun _ _ t => t.meant) (.start jiffies) events ↔
      Along (Intents.step P) (fun s e _ => s.heeds e) (.start jiffies) events) := by
  have start : (Intents.start jiffies).meant := fun id => ⟨nofun,nofun⟩
  have kept {s t : Intents} {e : WorldEvent} (good : s.meant) (heeds : s.heeds e) (next : s.step P e = some t) :
      t.meant ∧ s.wins P e :=
    ⟨(intentsMeant good next).mpr heeds,meantWins good⟩
  have exact_ {s t : Intents} {e : WorldEvent} (good : s.meant) (next : s.step P e = some t) :
      (t.meant ↔ s.heeds e) ∧ (t.meant → t.meant) :=
    ⟨intentsMeant good next,id⟩
  exact ⟨alongInvariant (P := fun s e _ => s.heeds e) (Q := fun s e _ => s.wins P e) kept start,alongExact exact_ start⟩

def addedAgain : List WorldEvent :=
  alone 0 2 (.handle (ascii "a/x.mp4") .add) ++ alone 1 1 (.setbyId 32767 .ok) ++
    alone 2 2 (.handle (ascii "a/x.mp4") .delete) ++ alone 3 2 (.handle (ascii "a/x.mp4") .add) ++
    ([.begin true,.turn,.work .saved,.log] : List WriterEvent).map fun e => .task (.write e)

theorem addedAgainEnd : (run (Intents.step testPlatform) (.start 0) addedAgain).bind (fun s =>
    (s.step testPlatform (.task (.write .remove))).map fun _ => (s.writer,(s.ctx.urls 32767).urlAction,s.last 32767)) =
    some (.removing 1 32767,some .delete,some .add) := by decide

theorem addedRemoved : ¬Along (Intents.step testPlatform) (fun s e _ => s.wins testPlatform e) (.start 0)
    (addedAgain ++ [.task (.write .remove)]) := by
  intro all
  obtain ⟨s,path,rest⟩ := Option.bind_eq_some_iff.mp addedAgainEnd
  obtain ⟨t,next,last⟩ := Option.map_eq_some_iff.mp rest
  injection last with hand last
  injection last with due added
  exact (alongRest all path t next).1 1 32767 hand due added

end steps

end MipsElfExec.Snooping
