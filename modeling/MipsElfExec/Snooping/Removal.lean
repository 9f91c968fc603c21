import MipsElfExec.Snooping.Effect
import MipsElfExec.Snooping.Pass

/-! Entries that wait for their removal when a pass takes them off the wheel. -/
namespace MipsElfExec.Snooping
open CString Run Section

variable {hz : Nat} {ctx : Ctx} {id : UrlId}

def Pass.prompt (p : Pass) : Prop :=
  ∀ id ∈ p.popped,(p.ctx.urls id).urlAction = some .delete →
    id ∉ p.requests ∧ (p.writer.hand ≠ some id → (p.ctx.place id).res = false)

def Pass.deletes (p : Pass) (e : PassEvent) : Prop :=
  match p.writer,e.1 with
  | .took _ _ id,.work outcome => (p.ctx.urls id).urlAction = some .delete → (p.ctx.urls id).ready outcome = true
  | _,_ => True

structure Prompt (p : Pass) : Prop where
  passing : Passing p
  opened : p.writer.fd = true
  prompt : p.prompt

theorem deletesFree {p : Pass} {e : PassEvent} (free : p.writer.working = none) : p.deletes e := by
  unfold Pass.deletes
  split
  · rename_i state _
    rw [state] at free
    cases free
  · trivial

theorem deletedTook {p : Pass} {e : PassEvent} (P : Prompt p) (works : Works p.writer e.1 id)
    (due : (p.ctx.urls id).urlAction = some .delete) (early : p.finishes e.1 = false) : ¬p.deletes e := by
  intro deletes
  have inside := (P.passing.held id (workingHand (worksHand works))).2.2
  have calling := P.passing.calling
  unfold Pass.deletes at deletes
  unfold Pass.finishes at early
  generalize p.writer = w,e.1 = event at works calling deletes early
  cases works with
  | took => exact Bool.false_ne_true (early.symm.trans (deletes due))
  | @answered fd i id action ok => exact (P.prompt id inside due).1 (calling fd i id action rfl)

theorem deletesReady {p : Pass} {e : PassEvent} (works : Works p.writer e.1 id)
    (ready : (p.ctx.urls id).urlAction = some .delete → p.finishes e.1 = true) : p.deletes e := by
  unfold Pass.deletes
  unfold Pass.finishes at ready
  generalize p.writer = w,e.1 = event at works ready
  cases works with
  | took => exact ready
  | answered => trivial

theorem handledFd {fd ready : Bool} {i : Nat} {last : Ctx} {writer : Writer} {out : Option WriterOut}
    (handled : Handled ctx fd i id ready (last,writer,out)) : writer.fd = fd := by
  rcases handledOut handled with ⟨_,_,_,state⟩ | ⟨_,⟨_,_,state⟩ | ⟨state,_⟩⟩
  · rw [state]
    cases fd <;> rfl
  · rw [state]
    rfl
  · rw [state]
    rfl

theorem workPrompt {p : Pass} {e : PassEvent} {i : Nat} {last : Ctx} {writer : Writer} {out : Option WriterOut}
    {sent : List UrlId} (P : Prompt p) (works : Works p.writer e.1 id)
    (handled : Handled p.ctx p.writer.fd i id (p.finishes e.1) (last,writer,out)) (silent : out = none → sent = [])
    (mine : ∀ j ∈ sent,j = id) : (p.move last writer sent).prompt ↔ p.deletes e := by
  have hand := worksHand works
  obtain ⟨owned,_,inside⟩ := P.passing.held id (workingHand hand)
  have still (beside : Beside p.ctx id last) (j : UrlId) (mem : j ∈ p.popped) (other : j ≠ id)
      (due : (last.urls j).urlAction = some .delete) :
      j ∉ (p.move last writer sent).requests ∧ (last.place j).res = false := by
    obtain ⟨asked,gone⟩ := P.prompt j mem ((beside.action j).symm.trans due)
    refine ⟨fun mem => ?_,?_⟩
    · rcases workRequests handled mine j mem with old | ours
      · exact asked old
      · exact other ours
    · have same : last.place j = p.ctx.place j := congrArg Core.place (beside.others j other)
      rw [same]
      refine gone ?_
      rw [workingHand hand]
      exact fun same => other (Option.some.inj same).symm
  have popped (none_ : writer.popping = []) (j : UrlId) (mem : j ∈ (p.move last writer sent).popped) : j ∈ p.popped := by
    simpa [Pass.move,none_] using mem
  have kept (early : p.finishes e.1 = false) (beside : Beside p.ctx id last) (none_ : writer.popping = [])
      (bad : (last.urls id).urlAction = some .delete → ¬(p.move last writer sent).prompt) :
      (p.move last writer sent).prompt ↔ p.deletes e := by
    rcases Decidable.em ((p.ctx.urls id).urlAction = some .delete) with due | other
    · exact iff_of_false (bad ((beside.action id).trans due)) (deletedTook P works due early)
    · refine iff_of_true (fun j mem due => ?_) (deletesReady works fun due => (other due).elim)
      have differ : j ≠ id := fun same => other ((beside.action id).symm.trans (same ▸ due))
      obtain ⟨asked,gone⟩ := still beside j (popped none_ j mem) differ due
      exact ⟨asked,fun _ => gone⟩
  cases workStage P.passing hand handled silent with
  | finish due beside idle requests state =>
    have writer_ : writer = _ := state
    rw [P.opened,if_pos rfl] at writer_
    cases writer_
    refine iff_of_true (fun j mem removed => ?_) (deletesReady works fun _ => due)
    rcases Decidable.em (j = id) with rfl | other
    · refine ⟨fun asked => ?_,fun off => (off rfl).elim⟩
      exact (P.prompt j inside ((beside.action j).symm.trans removed)).1 (requests ▸ asked)
    · obtain ⟨asked,gone⟩ := still beside j (popped rfl j mem) other removed
      exact ⟨asked,fun _ => gone⟩
  | @call fd i action early beside idle asked state =>
    have writer_ : writer = .calling fd i id action := state
    cases writer_
    exact kept early beside rfl fun due prompt => (prompt id (List.mem_append_left _ inside) due).1 asked
  | @queue fd i early beside queued state =>
    have writer_ : writer = .pass fd i := state
    cases writer_
    refine kept early beside rfl fun due prompt => ?_
    have gone := (prompt id (List.mem_append_left _ inside) due).2 (Option.some_ne_none id).symm
    exact Bool.false_ne_true (gone.symm.trans (beside.res.trans owned))

theorem promptExact {p q : Pass} {e : PassEvent} (P : Prompt p) (S : PassStep p e q) :
    (q.prompt ↔ p.deletes e) ∧ q.writer.fd = true := by
  obtain ⟨inv,opened,prompt⟩ := id P
  cases S with
  | @quiet fd i tick state =>
    have free : p.writer.hand = none := by rw [state]; rfl
    refine ⟨iff_of_true (fun j mem due => ?_) (deletesFree (by rw [state]; rfl)),rfl⟩
    obtain ⟨asked,gone⟩ := prompt j (by simpa [Pass.move,Writer.popping] using mem) due
    exact ⟨by simpa [Pass.move,Writer.asking] using asked,fun _ => gone fun same => Option.some_ne_none j (same.symm.trans free)⟩
  | @pop fd i id last state got =>
    have free : p.writer.hand = none := by rw [state]; rfl
    obtain ⟨others,action⟩ := cacheGetOther got
    rw [state] at opened
    refine ⟨iff_of_true (fun j mem due => ?_) (deletesFree (by rw [state]; rfl)),opened⟩
    have same : (p.move last (.took fd (i + 1) id) []).requests = p.requests := by simp [Pass.move,Writer.asking]
    rw [same]
    rcases Decidable.em (j = id) with rfl | other
    · refine ⟨fun asked => ?_,fun off => (off rfl).elim⟩
      exact (prompt j (inv.asked j asked) (action.symm.trans due)).1 asked
    · have old : j ∈ p.popped := by
        rcases List.mem_append.mp mem with old | new
        · exact old
        · exact (other (List.mem_singleton.mp new)).elim
      change (last.urls j).urlAction = some .delete at due
      rw [others j other] at due
      obtain ⟨asked,gone⟩ := prompt j old due
      refine ⟨asked,fun _ => ?_⟩
      change (last.urls j).place.res = false
      rw [others j other]
      exact gone fun same => Option.some_ne_none j (same.symm.trans free)
  | @work fd i id last writer out sent works fds handled silent mine =>
    cases fds
    exact ⟨workPrompt P works handled silent mine,(handledFd handled).trans opened⟩
  | @log i id text state wrote =>
    refine ⟨iff_of_true (fun j mem due => ?_) (deletesFree (by rw [state]; rfl)),rfl⟩
    obtain ⟨asked,gone⟩ := prompt j (by simpa [Pass.note,Pass.move,Writer.popping] using mem) due
    exact ⟨by simpa [Pass.note,Pass.move,Writer.asking] using asked,fun off => gone (by rw [state]; exact off)⟩
  | @remove i id state removed =>
    refine ⟨iff_of_true (fun j mem due => ?_) (deletesFree (by rw [state]; rfl)),rfl⟩
    change ((urlRelease p.ctx id).urls j).urlAction = some .delete at due
    rw [releaseAction] at due
    obtain ⟨asked,gone⟩ := prompt j (by simpa [Pass.move,Writer.popping] using mem) due
    refine ⟨by simpa [Pass.move,Writer.asking] using asked,fun _ => ?_⟩
    change ((urlRelease p.ctx id).place j).res = false
    rw [placeRelease]
    split
    · rfl
    · rename_i other
      refine gone ?_
      rw [state]
      exact fun same => other (Option.some.inj same).symm
  | @leave i id state other =>
    refine ⟨iff_of_true (fun j mem due => ?_) (deletesFree (by rw [state]; rfl)),rfl⟩
    obtain ⟨asked,gone⟩ := prompt j (by simpa [Pass.move,Writer.popping] using mem) due
    refine ⟨by simpa [Pass.move,Writer.asking] using asked,fun _ => gone ?_⟩
    rw [state]
    rintro same
    cases same
    exact other due

theorem startPrompt (ctx : Ctx) : (Pass.start ctx true).prompt := by
  intro j mem
  cases mem

/-- At every moment of a pass with the log open, the deleted entries that it popped are removed or in
hand and nothing was asked for them, exactly when each of them was complete as it was popped. -/
theorem deleteQuietExactly (hz : Nat) {ctx : Ctx} (events : List PassEvent) (inv : TableInvariant ctx) :
    Along (Pass.step hz) (fun _ _ q => q.prompt) (.start ctx true) events ↔
      Along (Pass.step hz) (fun p e _ => p.deletes e) (.start ctx true) events := by
  refine alongExact (I := Prompt) (fun P next => ?_) ⟨startPassing inv true,rfl,startPrompt ctx⟩
  obtain ⟨iff,opened⟩ := promptExact P (passSteps next)
  exact ⟨iff,fun prompt => ⟨passingStep P.passing (passSteps next),opened,prompt⟩⟩

def downloadedDeleted : Ctx := ((ngxHttpSpUrlHandle (ascii "a/x.mp4") .delete).exec downloaded).2

theorem deleteMeets {name : Bytes} (owned : ∀ key id,ngxHttpSnoopingUrlHashFind ctx key = some id → Queues ctx id) :
    (ngxHttpSpUrlHandle name .delete).Meets TableOp.exec Orderly ctx := by
  unfold ngxHttpSpUrlHandle
  split
  · trivial
  · split
    · trivial
    · split
      · trivial
      · dsimp only
        split
        · trivial
        · refine ⟨trivial,?_⟩
          dsimp only [TableOp.exec]
          cases found : ngxHttpSnoopingUrlHashFind ctx _ with
          | none => trivial
          | some id => exact ⟨owned _ id found,trivial⟩

theorem downloadedDeletedTidy : TableInvariant downloadedDeleted := by
  obtain ⟨res,hash,slots,T⟩ := id downloadedTidy
  exact progTidy downloadedTidy (deleteMeets fun key id found => Or.inr (urlFound ⟨res,hash,T.toListed⟩ found).1)

theorem downloadedGone : (run (Pass.step 100) (.start downloadedDeleted true) downloadedPass).map (fun p =>
    (p.popped,(p.ctx.urls 32767).urlAction,(p.ctx.place 32767).res,p.requests)) = some ([32767],some .delete,false,[]) := by
  decide

theorem downloadedQuiet : (∃ p,run (Pass.step 100) (.start downloadedDeleted true) downloadedPass = some p ∧
      32767 ∈ p.popped ∧ (p.ctx.urls 32767).urlAction = some .delete ∧ (p.ctx.place 32767).res = false) ∧
    (Along (Pass.step 100) (fun _ _ q => q.prompt) (.start downloadedDeleted true) downloadedPass ↔
      Along (Pass.step 100) (fun p e _ => p.deletes e) (.start downloadedDeleted true) downloadedPass) := by
  obtain ⟨p,path,last⟩ := Option.map_eq_some_iff.mp downloadedGone
  obtain ⟨popped,rest⟩ := Prod.mk.inj last
  obtain ⟨action,rest⟩ := Prod.mk.inj rest
  refine ⟨⟨p,path,?_,action,(Prod.mk.inj rest).1⟩,deleteQuietExactly 100 downloadedPass downloadedDeletedTidy⟩
  rw [popped]
  exact List.mem_cons_self

def deletedEarly : Ctx :=
  ((ngxHttpSpUrlHandle (ascii "a/x.mp4") .delete).exec
    ((ngxHttpSpUrlHandle (ascii "a/x.mp4") .add).exec (ngxHttpSnoopingInit 0)).2).2

theorem deletedEarlyAsked : ((run (Pass.step 100) (.start deletedEarly true)
    [(.turn,fullWrites 0),(.work .saved,fullWrites 0)]).map fun p =>
      (p.popped,(p.ctx.urls 32767).urlAction,p.requests)) = some ([32767],some .delete,[32767]) := by
  decide

theorem deletedEarlyCalled : ¬Along (Pass.step 100) (fun _ _ q => q.prompt) (.start deletedEarly true)
    [(.turn,fullWrites 0),(.work .saved,fullWrites 0)] := by
  intro all
  obtain ⟨p,path,last⟩ := Option.map_eq_some_iff.mp deletedEarlyAsked
  obtain ⟨popped,rest⟩ := Prod.mk.inj last
  obtain ⟨action,asked⟩ := Prod.mk.inj rest
  have prompt : p.prompt := runInvariant (I := Pass.prompt) (fun _ good _ => good) (startPrompt _) all path
  exact (prompt 32767 (by rw [popped]; exact List.mem_cons_self) action).1 (by rw [asked]; exact List.mem_cons_self)

end MipsElfExec.Snooping
