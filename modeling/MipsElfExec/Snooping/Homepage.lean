import MipsElfExec.Lib.Run
import MipsElfExec.Snooping.Connection

/-! The limit on homepage redirects: one for a bucket of clients within the timeout, on a tick counter that wraps.
Times are ticks since a start that never was 0 again; the code sees them modulo 2^32. -/
namespace MipsElfExec.Snooping
open CString Run

def httpHomepageTimeout (P : Platform) : Nat := 10 * 60 * P.hz

structure HomepageRequest where
  time : Nat
  env : ReplyEnv
  con : Con
  ctx : Ctx
  entry : UrlEntry
  resUrl : Bytes

def HomepageRequest.bucket (r : HomepageRequest) : Nat := homepageHashKey r.con.clientAddr

-- The hash table of the code, and every redirect that was sent: its bucket and its time, the newest first.
structure Poller where
  hash : Nat → Nat := fun _ => 0
  now : Nat := 0
  redirects : List (Nat × Nat) := []

def Poller.answer (P : Platform) (s : Poller) (r : HomepageRequest) : Outcome :=
  ngxHttpSnoopingUrlRedirect P r.env r.con { r.ctx with jiffies := word r.time,homepageHash := s.hash } r.entry r.resUrl

def Poller.step (P : Platform) (s : Poller) (r : HomepageRequest) : Option Poller :=
  if s.now ≤ r.time ∧ r.entry.cacheFlg.homepagePoll = true then
    let o := s.answer P r
    some ⟨o.ctx.homepageHash,r.time,if o.reply.isSome then (r.bucket,r.time) :: s.redirects else s.redirects⟩
  else none

def HomepageRequest.sendable (r : HomepageRequest) : Bool := r.env.freeSpace != 0 && r.env.efb

def Poller.rested (P : Platform) (s : Poller) (r : HomepageRequest) : Prop :=
  ∀ q ∈ s.redirects,q.1 = r.bucket → q.2 + httpHomepageTimeout P ≤ r.time
instance (P : Platform) (s : Poller) (r : HomepageRequest) : Decidable (s.rested P r) := by
  unfold Poller.rested; infer_instance

structure Limited (P : Platform) (s : Poller) (r : HomepageRequest) : Prop where
  spaced : (s.answer P r).reply.isSome = true → s.rested P r
  served : r.sendable = true → s.rested P r → (s.answer P r).reply.isSome = true

def Poller.last (s : Poller) (bucket : Nat) : Option Nat := (s.redirects.find? (·.1 == bucket)).map (·.2)

def SameLap (a b : Nat) : Prop := a / 2 ^ 32 = b / 2 ^ 32
instance (a b : Nat) : Decidable (SameLap a b) := by unfold SameLap; infer_instance

def Legible (time last timeout : Nat) : Prop :=
  if time < last + timeout then SameLap time (last + timeout) ∧ word last ≠ 0
  else SameLap time (last + timeout) ∨ word last = 0 ∨ word (last + timeout) ≤ word time
instance (time last timeout : Nat) : Decidable (Legible time last timeout) := by unfold Legible; infer_instance

def InStep (P : Platform) (s : Poller) (r : HomepageRequest) : Prop :=
  r.sendable = true → ∀ last ∈ s.last r.bucket,Legible r.time last (httpHomepageTimeout P)
instance (P : Platform) (s : Poller) (r : HomepageRequest) : Decidable (InStep P s r) := by
  unfold InStep; infer_instance

section steps
variable {P : Platform} {s t : Poller} {r : HomepageRequest}

structure Remembered (s : Poller) : Prop where
  hash : ∀ bucket,s.hash bucket = ((s.last bucket).map word).getD 0
  past : ∀ q ∈ s.redirects,q.2 ≤ s.now
  order : s.redirects.Pairwise fun q q' => q'.2 ≤ q.2

theorem answerSome (poll : r.entry.cacheFlg.homepagePoll = true) : (s.answer P r).reply.isSome =
    (r.sendable && !homepageRecent P { r.ctx with jiffies := word r.time,homepageHash := s.hash } r.con.clientAddr) := by
  unfold Poller.answer ngxHttpSnoopingUrlRedirect HomepageRequest.sendable
  rw [poll,Bool.true_and]
  split
  · rename_i recent
    rw [recent,Bool.not_true,Bool.and_false]
    rfl
  · rename_i old
    rw [Bool.eq_false_of_not_eq_true old]
    split
    · rename_i full
      rw [full]
      rfl
    · rename_i room
      split
      · rename_i none_
        rw [none_,Bool.and_false]
        rfl
      · rename_i efb
        rw [Bool.eq_true_of_not_eq_false efb,bne_iff_ne.mpr room]
        rfl

theorem answerHash (poll : r.entry.cacheFlg.homepagePoll = true) : (s.answer P r).ctx.homepageHash =
    if (s.answer P r).reply.isSome then Function.update s.hash r.bucket (word r.time) else s.hash := by
  unfold Poller.answer ngxHttpSnoopingUrlRedirect
  rw [poll]
  split
  · rfl
  · split
    · rfl
    · split <;> rfl

theorem pollerStep (next : s.step P r = some t) : s.now ≤ r.time ∧ r.entry.cacheFlg.homepagePoll = true ∧
    t = ⟨(s.answer P r).ctx.homepageHash,r.time,
      if (s.answer P r).reply.isSome then (r.bucket,r.time) :: s.redirects else s.redirects⟩ := by
  unfold Poller.step at next
  split at next <;> try contradiction
  rename_i fine
  exact ⟨fine.1,fine.2,(Option.some.inj next).symm⟩

theorem lastSent (hash : Nat → Nat) (now : Nat) (redirects : List (Nat × Nat)) (sent : Nat × Nat) (bucket : Nat) :
    (Poller.mk hash now (sent :: redirects)).last bucket =
      if bucket = sent.1 then some sent.2 else (Poller.mk hash now redirects).last bucket := by
  unfold Poller.last
  rw [List.find?_cons]
  split
  · rename_i same
    rw [if_pos (beq_iff_eq.mp same).symm]
    rfl
  · rename_i other
    rw [if_neg fun same => by rw [same,beq_self_eq_true] at other; cases other]

theorem rememberedStep (K : Remembered s) (next : s.step P r = some t) : Remembered t := by
  obtain ⟨later,poll,same⟩ := pollerStep next
  have hash := @answerHash P s r poll
  subst same
  rw [hash]
  cases (s.answer P r).reply.isSome with
  | false => exact ⟨K.hash,fun q mem => Nat.le_trans (K.past q mem) later,K.order⟩
  | true =>
    refine ⟨fun bucket => ?_,fun q mem => ?_,List.pairwise_cons.mpr ⟨fun q mem => ?_,K.order⟩⟩
    · dsimp only
      rw [if_pos rfl,if_pos rfl,lastSent,Function.update_apply]
      split
      · rfl
      · exact K.hash bucket
    · rcases List.mem_cons.mp mem with rfl | old
      · exact Nat.le_refl _
      · exact Nat.le_trans (K.past q old) later
    · exact Nat.le_trans (K.past q mem) later

theorem restedLast (K : Remembered s) : s.rested P r ↔ ∀ last ∈ s.last r.bucket,last + httpHomepageTimeout P ≤ r.time := by
  unfold Poller.rested Poller.last
  have order := K.order
  generalize s.redirects = redirects at order
  constructor
  · intro rested last mem
    obtain ⟨q,found,rfl⟩ := Option.map_eq_some_iff.mp mem
    exact rested q (List.mem_of_find?_eq_some found) (beq_iff_eq.mp (List.find?_some (p := fun q : Nat × Nat => q.1 == r.bucket) found))
  · induction redirects with
    | nil =>
      intro _ q mem
      cases mem
    | cons q redirects ih =>
      obtain ⟨newer,order⟩ := List.pairwise_cons.mp order
      intro all q' mem mine
      rcases Decidable.em (q.1 = r.bucket) with here | other
      · have first := all q.2 (by rw [List.find?_cons,here,beq_self_eq_true]; rfl)
        rcases List.mem_cons.mp mem with rfl | old
        · exact first
        · have before := newer q' old
          omega
      · rcases List.mem_cons.mp mem with rfl | old
        · exact absurd mine other
        · refine ih order (fun last found => all last ?_) q' old mine
          rw [List.find?_cons,beq_eq_false_iff_ne.mpr other]
          exact found

theorem legibleRight {time last timeout : Nat} (past : last ≤ time) (small : timeout < 2 ^ 32) :
    (¬(word time < word (word last + timeout) ∧ word last ≠ 0) ↔ last + timeout ≤ time) ↔ Legible time last timeout := by
  unfold Legible SameLap word
  split <;> omega

theorem limitedIff (K : Remembered s) (small : 10 * 60 * P.hz < 2 ^ 31) (next : s.step P r = some t) :
    Limited P s r ↔ InStep P s r := by
  obtain ⟨later,poll,_⟩ := pollerStep next
  have some_ := @answerSome P s r poll
  have rested := @restedLast P s r K
  have limited : Limited P s r ↔ (r.sendable = true → ((s.answer P r).reply.isSome = true ↔ s.rested P r)) := by
    constructor
    · exact fun limited room => ⟨limited.spaced,limited.served room⟩
    · refine fun exact_ => ⟨fun sent => ?_,fun room => (exact_ room).mpr⟩
      rw [some_,Bool.and_eq_true] at sent
      exact (exact_ sent.1).mp (some_.trans (Bool.and_eq_true _ _ ▸ sent))
  rw [limited,InStep]
  refine forall_congr' fun room => ?_
  rw [some_,room,Bool.true_and,rested,Bool.not_eq_true',Bool.eq_false_iff]
  unfold homepageRecent
  have hash := K.hash r.bucket
  unfold HomepageRequest.bucket at hash
  dsimp only
  rw [hash]
  cases found : s.last r.bucket with
  | none =>
    unfold HomepageRequest.bucket at found
    rw [found]
    simp
  | some last =>
    have past : last ≤ r.time := by
      obtain ⟨q,mem,same⟩ := Option.map_eq_some_iff.mp found
      have before := K.past q (List.mem_of_find?_eq_some mem)
      omega
    have right := @legibleRight r.time last (httpHomepageTimeout P) past (by unfold httpHomepageTimeout; omega)
    unfold HomepageRequest.bucket at found
    rw [found]
    rw [Option.map_some,Option.getD_some,Ne,Bool.and_eq_true,decide_eq_true_iff,bne_iff_ne]
    simp only [Option.mem_some_iff,forall_eq']
    exact right

theorem rememberedFirst : Remembered {} := ⟨fun _ => rfl,fun _ mem => (List.not_mem_nil mem).elim,List.Pairwise.nil⟩

instance : Decidable (Limited P s r) :=
  decidable_of_iff (((s.answer P r).reply.isSome = true → s.rested P r) ∧
    (r.sendable = true → s.rested P r → (s.answer P r).reply.isSome = true))
    ⟨fun both => ⟨both.1,both.2⟩,fun limited => ⟨limited.spaced,limited.served⟩⟩

end steps

/-- The limit holds along a run exactly when the counter can be read along it. -/
theorem homepageLimitedExactly (P : Platform) (small : 10 * 60 * P.hz < 2 ^ 31) (rs : List HomepageRequest) :
    Along (Poller.step P) (fun s r _ => Limited P s r) {} rs ↔ Along (Poller.step P) (fun s r _ => InStep P s r) {} rs :=
  alongIff (fun K next => ⟨rememberedStep K next,limitedIff K small next⟩) rememberedFirst

def homepagePlatform : Platform := ⟨ngxHttpEfGetn,100,fun _ => [],fun _ => []⟩

def homepageAt (time : Nat) : HomepageRequest :=
  ⟨time,⟨1,true⟩,{ clientAddr := 0xc0a80102 },ngxHttpSnoopingInit 0,
    { pcacheRule := some { cacheFlg := { homepagePoll := true },keyFlg := 0 } },ascii "/"⟩

theorem homepageWrapHeld : Along (Poller.step homepagePlatform) (fun s r _ => Limited homepagePlatform s r) {}
    [homepageAt 4294907295,homepageAt 4294967290,homepageAt 4294967295,homepageAt 4294967300] :=
  (homepageLimitedExactly homepagePlatform (by decide) _).mpr (by decide)

theorem homepageWrapMissed :
    ¬Along (Poller.step homepagePlatform) (fun s r _ => Limited homepagePlatform s r) {}
      [homepageAt 4294967290,homepageAt 4294967291] ∧
    ¬Along (Poller.step homepagePlatform) (fun s r _ => Limited homepagePlatform s r) {}
      [homepageAt 4294900000,homepageAt 4294967301] := by
  constructor <;> decide

end MipsElfExec.Snooping
