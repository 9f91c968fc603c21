import MipsElfExec.SnoopClient.Bounds

/-! The whole parser: the texts on which it keeps to its memory, and who frees what it takes from the heap. Each
object that the array leads to is freed with it, so an object is freed exactly as long as nothing is stored over it. -/
namespace MipsElfExec.SnoopClient.Memory
open CString Access

section playlist
variable (granted : Nat → Bool) (strict : Prop)

def PlaylistFits (cur : Bytes) : Prop :=
  MarkFits (strstr cur (ascii "seed")) ykTokenLenSeed cur (fun _ => True) ∧
  ∀ found ∈ SnoopClient.ykParsePlSeed cur,IdsTextFits granted (fun next types calls => ∀ cur ∈ next,
    SegsTextFits granted strict cur (fun type => if type ∈ types then some 0 else none) calls) found.2 0

variable {granted strict} {inv side : List Stream → Heap → Prop}

theorem heldFresh {made : List Stream} (fresh : ∀ stream ∈ made,stream.segs = []) :
    heldOf made = fun type => if type ∈ made.map Stream.type then some 0 else none := by
  funext type
  induction made with
  | nil => rfl
  | cons stream made ih =>
    have rest := ih fun other mem => fresh other (List.mem_cons_of_mem _ mem)
    by_cases same : stream.type = type
    · simp [heldOf,same,fresh stream List.mem_cons_self]
    · simpa [heldOf,same,Ne.symm same] using rest

theorem seedRest {cur : Bytes} {found : Bytes × Bytes} (text : Terminated cur)
    (mark : MarkFits (strstr cur (ascii "seed")) ykTokenLenSeed cur fun _ => True)
    (seed : SnoopClient.ykParsePlSeed cur = some found) : Terminated found.2 := by
  obtain ⟨ret,here,rfl⟩ := Option.map_eq_some_iff.mp seed
  obtain ⟨k,place,rfl⟩ := Option.map_eq_some_iff.mp here
  have inside := (mark k place).1
  have ends := endsCopied (endsDrop (terminatedEnds text) inside) (p := fun b => b != 44 && isdigit b) (by decide)
    (ykSeedStringLen - 1)
  exact terminatedSuffix text ((List.drop_suffix _ _).trans (List.drop_suffix _ _)) (endsSome ends)

def seeded (seed : Nat) (streams : List Stream) : List Stream := streams.map fun stream => { stream with seed := seed }

def IdsGive (inv side : List Stream → Heap → Prop) : Prop :=
  ∀ made h' seed,Took {} h' (made.map Stream.addr) → (∀ stream ∈ made,stream.Fresh) → made.length ≤ ykStreamTypeTotal →
    inv made h' ∧ inv (seeded seed made) h' ∧ side (seeded seed made) h'

theorem playlistRule (step : ListKeeps strict inv side) (ids : IdsGive inv side) (text : Bytes) :
    Meets (ykParsePlaylist granted (stringAt text) [] {}) (fun r => inv r.2.1 r.2.2) ↔
      PlaylistFits granted strict (stringAt text) := by
  have whole := terminatedString text
  have start := ids [] {} 0 (tookNone _) (by simp) (Nat.zero_le _)
  unfold ykParsePlaylist PlaylistFits
  rw [if_neg (by simp),meetsBind,seedRule whole]
  refine and_congr_right fun mark => ?_
  cases seed : SnoopClient.ykParsePlSeed (stringAt text) with
  | none => simpa using start.1
  | some found =>
    simp only [meetsBind,Option.mem_def,Option.some.injEq,forall_eq']
    refine idsRule (seedRest whole mark seed) (by simpa using start.1) fun next made h' took fresh few tail => ?_
    obtain ⟨bare,holds,kept⟩ := ids made h' (atoi found.1) took fresh few
    cases next with
    | none => simpa using bare
    | some cur =>
      obtain ⟨some_,suffix,room⟩ := tail cur rfl
      have types : heldOf (seeded (atoi found.1) made) = heldOf made := by
        funext type
        simp [heldOf,seeded,List.find?_map,Function.comp_def]
      have rule := @segsRule granted _ _ _ step cur _ h' (terminatedSuffix (seedRest whole mark seed) suffix some_) kept
      rw [types,heldFresh fun stream mem => (fresh stream mem).1,and_iff_right holds] at rule
      simpa [setSeeds,room,seeded] using rule

end playlist

def Stream.objects (stream : Stream) : List Nat := stream.segs.map Segment.addr ++ [stream.addr]

def objects (streams : List Stream) : List Nat := streams.flatMap Stream.objects

def Released (r : Int × List Stream × Heap) : Prop :=
  let (streams,h) := ykDestroyStreamsAll r.2.1 r.2.2
  streams = [] ∧ h.allocated.Nodup ∧ h.freed.Perm h.allocated

def Held (streams : List Stream) (h : Heap) : Prop := h.allocated.Nodup ∧ h.allocated.Perm (objects streams ++ h.freed)

def HeldBut (streams : List Stream) (h : Heap) (lost : List Nat) : Prop :=
  h.allocated.Perm (objects streams ++ h.freed ++ lost)

def Kept (streams : List Stream) (h : Heap) : Prop := h.Sound ∧ ∃ lost,HeldBut streams h lost

theorem heldNone {streams : List Stream} {h : Heap} {lost : List Nat} (sound : h.Sound) (held : HeldBut streams h lost) :
    Held streams h ↔ lost = [] := by
  constructor
  · rintro ⟨-,all⟩
    have size := (all.symm.trans held).length_eq
    rw [@List.length_append _ (objects streams ++ h.freed)] at size
    exact List.length_eq_zero_iff.mp (by omega)
  · rintro rfl
    exact ⟨sound.1,by simpa [HeldBut] using held⟩

theorem freedSegs (segs : List Segment) (h : Heap) :
    segs.foldl (fun h seg => h.free seg.addr) h = { h with freed := (segs.map Segment.addr).reverse ++ h.freed } := by
  induction segs generalizing h with
  | nil => rfl
  | cons seg segs ih =>
    rw [List.foldl_cons,ih]
    simp [Heap.free]

theorem freedStreams (streams : List Stream) (h : Heap) :
    ykDestroyStreamsAll streams h = ([],{ h with freed := (objects streams).reverse ++ h.freed }) := by
  unfold ykDestroyStreamsAll
  refine Prod.ext rfl ?_
  induction streams generalizing h with
  | nil => rfl
  | cons stream streams ih =>
    rw [List.foldl_cons,ih,freedSegs]
    simp [objects,Stream.objects,Heap.free]

theorem releasedHeld {r : Int × List Stream × Heap} : Released r ↔ Held r.2.1 r.2.2 := by
  unfold Released Held
  rw [freedStreams]
  have order := (List.reverse_perm (objects r.2.1)).append_right r.2.2.freed
  constructor
  · rintro ⟨-,once,freed⟩
    exact ⟨once,freed.symm.trans order⟩
  · rintro ⟨once,held⟩
    exact ⟨rfl,once,order.trans held.symm⟩

theorem heldStep : ListKeeps True Held Kept := by
  intro streams i stream made h h' kept place took owned room
  obtain ⟨front,back,rfl,set⟩ := setSplit place
  obtain ⟨sound,lost,held⟩ := kept
  obtain ⟨spent,freed,allocated⟩ := took.spent
  have after : HeldBut (front ++ { stream with segs := segsAfter stream.segs 0 made } :: back) h'
      ((stream.segs.take made.length).map Segment.addr ++ lost) := by
    have parts : stream.segs.map Segment.addr =
        (stream.segs.take made.length).map Segment.addr ++ (stream.segs.drop made.length).map Segment.addr := by
      rw [← List.map_append,List.take_append_drop]
    unfold HeldBut at held ⊢
    simp only [List.perm_iff_count,objects,Stream.objects,List.flatMap_append,List.flatMap_cons,List.count_append,parts]
      at held allocated ⊢
    intro p
    have one := held p
    have two := allocated p
    simp only [segsAfter,freed,List.take_zero,List.nil_append,Nat.zero_add,List.map_append,List.count_append]
    omega
  rw [set]
  refine ⟨⟨took.sound sound,_,after⟩,?_⟩
  rw [heldNone (took.sound sound) after,heldNone sound held]
  simp [List.take_eq_nil_iff,and_comm,or_comm]

theorem freshSound : ({} : Heap).Sound := ⟨List.nodup_nil,by simp⟩

theorem heldIds : IdsGive Held Kept := by
  intro made h' seed took fresh _
  obtain ⟨spent,freed,allocated⟩ := took.spent
  have sound := took.sound freshSound
  have all : objects made = made.map Stream.addr := by
    unfold objects
    rw [List.map_eq_flatMap]
    exact List.flatMap_congr fun stream mem => by simp [Stream.objects,(fresh stream mem).1]
  have same : objects (seeded seed made) = objects made := List.flatMap_map _ _ made
  have held : h'.allocated.Perm (objects made ++ h'.freed) := by
    rw [all,freed]
    simpa using allocated
  exact ⟨⟨sound.1,held⟩,⟨sound.1,same ▸ held⟩,sound,[],by simpa [HeldBut,same] using held⟩

/-- Everything is freed once exactly when the text fits and no type has two lists with segments. -/
theorem releasedExactly (granted : Nat → Bool) (text : Bytes) :
    Meets (ykParsePlaylist granted (stringAt text) [] {}) Released ↔ PlaylistFits granted True (stringAt text) := by
  rw [← playlistRule heldStep heldIds]
  exact meetsCongr fun _ _ => releasedHeld

def segmentText : Bytes := ascii "\x7b\"no\":\"0\",\"size\":\"9\",\"seconds\":\"6\",\"k\":\"a\",\"k2\":\"b\"\x7d]"

def twoLists : Bytes := ascii "\"seed\":7,\"streamfileids\":\x7b\"flv\":\"40*32\"\x7d,\"segs\":\x7b\"flv\":[" ++
  segmentText ++ ascii ",\"flv\":[" ++ segmentText ++ ascii "\x7d,\"st"

theorem segmentLost : (ykParsePlaylist (fun _ => true) (stringAt twoLists) [] {}).map (fun r =>
      (r.1,(ykDestroyStreamsAll r.2.1 r.2.2).2)) = .ok (0,⟨3,[2,1,0],[0,2]⟩) ∧
    ¬Meets (ykParsePlaylist (fun _ => true) (stringAt twoLists) [] {}) Released := by
  have run : (ykParsePlaylist (fun _ => true) (stringAt twoLists) [] {}).map (fun r =>
      (r.1,(ykDestroyStreamsAll r.2.1 r.2.2).2)) = .ok (0,⟨3,[2,1,0],[0,2]⟩) := by decide +kernel
  refine ⟨run,?_⟩
  rintro ⟨r,ends,released⟩
  rw [ends] at run
  have left : (ykDestroyStreamsAll r.2.1 r.2.2).2 = ⟨3,[2,1,0],[0,2]⟩ := congrArg Prod.snd (Except.ok.inj run)
  have freed : (ykDestroyStreamsAll r.2.1 r.2.2).2.freed.Perm (ykDestroyStreamsAll r.2.1 r.2.2).2.allocated := released.2.2
  rw [left] at freed
  exact absurd freed.length_eq (by decide)

end MipsElfExec.SnoopClient.Memory
