import Mathlib.Data.Fintype.Card
import Mathlib.Data.Finset.Card
import MipsElfExec.Snooping.Table

/-! Which entry is on which list. `Listed` holds whatever the operations do: every entry
is free or in use, and a hashed one hangs in the bucket of its key. `Tidy` adds what the
timer wheel and the two counters promise. -/
namespace MipsElfExec.Snooping
open CString MipsElfExec.Ring

structure Place where
  res : Bool
  urlHash : Bool
  cacheList : Bool
  key : Bytes
  deriving DecidableEq, Repr

def UrlEntry.place (e : UrlEntry) : Place :=
  ⟨e.urlFlags.res,e.urlFlags.urlHash,e.urlFlags.cacheList,e.fileKeyName⟩

def Ctx.place (ctx : Ctx) (id : UrlId) : Place := (ctx.urls id).place

structure Listed (ctx : Ctx) (res : ResList → List UrlId) (hash : Nat → List UrlId) : Prop where
  resRings : Rings ctx.resLinks res
  somewhere : ∀ id,id ∈ res .free ∨ id ∈ res .use
  inUse : ∀ id,id ∈ res .use ↔ (ctx.place id).res = true
  hashRings : Rings ctx.hashLinks hash
  hashed : ∀ id b,id ∈ hash b ↔ (ctx.place id).urlHash = true ∧ b = urlBucket (ctx.place id).key
  hashedInUse : ∀ id,(ctx.place id).urlHash = true → (ctx.place id).res = true

def queued (ctx : Ctx) : Finset UrlId := Finset.univ.filter fun id => (ctx.place id).cacheList = true

structure Tidy (ctx : Ctx) (res : ResList → List UrlId) (hash slots : Nat → List UrlId) : Prop extends
    Listed ctx res hash where
  urlFree : ctx.urlFree = (res .free).length
  distinct : ∀ i j,(ctx.place i).urlHash = true → (ctx.place j).urlHash = true →
    (ctx.place i).key = (ctx.place j).key → i = j
  slotRings : Rings ctx.cacheLinks slots
  onSlot : ∀ id,(ctx.place id).cacheList = true ↔ ∃ k < httpCacheTimeOut,id ∈ slots k
  slotsInside : ∀ k,httpCacheTimeOut ≤ k → slots k = []
  cacheNum : ctx.cacheNum = (queued ctx).card
  queuedInUse : ∀ id,(ctx.place id).cacheList = true → (ctx.place id).res = true

def TableInvariant (ctx : Ctx) : Prop := ∃ res hash slots,Tidy ctx res hash slots

structure Alike (ctx ctx' : Ctx) : Prop where
  resLinks : ctx'.resLinks = ctx.resLinks
  hashLinks : ctx'.hashLinks = ctx.hashLinks
  cacheLinks : ctx'.cacheLinks = ctx.cacheLinks
  urlFree : ctx'.urlFree = ctx.urlFree
  cacheNum : ctx'.cacheNum = ctx.cacheNum
  place : ctx'.place = ctx.place

variable {ctx ctx' ctx'' : Ctx} {id j : UrlId} {res : ResList → List UrlId} {hash slots : Nat → List UrlId}

theorem modifyUrls (ctx : Ctx) (id j : UrlId) (f : UrlEntry → UrlEntry) :
    (ctx.modify id f).urls j = if j = id then f (ctx.urls id) else ctx.urls j := by
  simp [Ctx.modify,Function.update_apply]

@[simp] theorem modifySelf (ctx : Ctx) (id : UrlId) (f : UrlEntry → UrlEntry) :
    (ctx.modify id f).urls id = f (ctx.urls id) := by
  simp [modifyUrls]

theorem modifyOther (ctx : Ctx) (f : UrlEntry → UrlEntry) (other : j ≠ id) :
    (ctx.modify id f).urls j = ctx.urls j := by
  simp [modifyUrls,other]

theorem placeSelf (ctx : Ctx) (id : UrlId) (f : UrlEntry → UrlEntry) :
    (ctx.modify id f).place id = (f (ctx.urls id)).place := by
  simp [Ctx.place]

theorem placeOther (ctx : Ctx) (f : UrlEntry → UrlEntry) (other : j ≠ id) :
    (ctx.modify id f).place j = ctx.place j := by
  simp [Ctx.place,modifyOther ctx f other]

theorem placeModify {f : UrlEntry → UrlEntry} (same : (f (ctx.urls id)).place = (ctx.urls id).place) :
    (ctx.modify id f).place = ctx.place := by
  funext j
  rcases Decidable.em (j = id) with rfl | other
  · rw [placeSelf,same]
    rfl
  · exact placeOther ctx f other

theorem placeFlags {f : UrlFlags → UrlFlags} (ctx : Ctx) (id j : UrlId) :
    (ctx.setFlags id f).place j = if j = id then ((ctx.urls id).setFlags f).place else ctx.place j := by
  unfold Ctx.setFlags
  split
  · rename_i same
    rw [same,placeSelf]
  · rename_i other
    exact placeOther ctx _ other

theorem placeHashAdd (ctx : Ctx) (id j : UrlId) :
    (ngxHttpSnoopingUrlHashAdd ctx id).place j = if j = id then { ctx.place id with urlHash := true } else ctx.place j :=
  placeFlags (ctx.setHash _) id j

theorem placeHashDel (ctx : Ctx) (id j : UrlId) :
    (ngxHttpSnoopingUrlHashDel ctx id).place j = if j = id then { ctx.place id with urlHash := false } else ctx.place j :=
  placeFlags (ctx.setHash _) id j

theorem alikeRefl (ctx : Ctx) : Alike ctx ctx := ⟨rfl,rfl,rfl,rfl,rfl,rfl⟩

theorem alikeSymm (A : Alike ctx ctx') : Alike ctx' ctx :=
  ⟨A.resLinks.symm,A.hashLinks.symm,A.cacheLinks.symm,A.urlFree.symm,A.cacheNum.symm,A.place.symm⟩

theorem alikeModify {f : UrlEntry → UrlEntry} (same : (f (ctx.urls id)).place = (ctx.urls id).place) :
    Alike ctx (ctx.modify id f) :=
  ⟨rfl,rfl,rfl,rfl,rfl,placeModify same⟩

theorem listedCongr (T : Listed ctx res hash) (resLinks : ctx'.resLinks = ctx.resLinks)
    (hashLinks : ctx'.hashLinks = ctx.hashLinks) (sameRes : ∀ i,(ctx'.place i).res = (ctx.place i).res)
    (sameHash : ∀ i,(ctx'.place i).urlHash = (ctx.place i).urlHash)
    (sameKey : ∀ i,(ctx'.place i).key = (ctx.place i).key) : Listed ctx' res hash where
  resRings := resLinks ▸ T.resRings
  somewhere := T.somewhere
  inUse := fun i => by rw [sameRes]; exact T.inUse i
  hashRings := hashLinks ▸ T.hashRings
  hashed := fun i b => by rw [sameHash,sameKey]; exact T.hashed i b
  hashedInUse := fun i => by rw [sameHash,sameRes]; exact T.hashedInUse i

theorem listedAlike (A : Alike ctx ctx') (T : Listed ctx res hash) : Listed ctx' res hash :=
  listedCongr T A.resLinks A.hashLinks (fun i => by rw [A.place]) (fun i => by rw [A.place])
    (fun i => by rw [A.place])

theorem tidyAlike (A : Alike ctx ctx') (T : Tidy ctx res hash slots) : Tidy ctx' res hash slots := by
  obtain ⟨listed,urlFree,distinct,slotRings,onSlot,slotsInside,cacheNum,queuedInUse⟩ := T
  refine ⟨listedAlike A listed,A.urlFree.trans urlFree,?_,A.cacheLinks ▸ slotRings,?_,slotsInside,?_,?_⟩
  · rwa [A.place]
  · rwa [A.place]
  · rw [A.cacheNum,cacheNum]
    unfold queued
    rw [A.place]
  · rwa [A.place]

theorem invariantAlike (A : Alike ctx ctx') : TableInvariant ctx' ↔ TableInvariant ctx :=
  ⟨fun ⟨res,hash,slots,T⟩ => ⟨res,hash,slots,tidyAlike (alikeSymm A) T⟩,
    fun ⟨res,hash,slots,T⟩ => ⟨res,hash,slots,tidyAlike A T⟩⟩

theorem queuedSmall (ctx : Ctx) : (queued ctx).card ≤ httpSpUrlMax :=
  (Finset.card_le_univ _).trans (Nat.le_of_eq (Fintype.card_fin _))

theorem memQueued : id ∈ queued ctx ↔ (ctx.place id).cacheList = true := by
  simp [queued]

theorem placeCacheAdd (ctx : Ctx) (id j : UrlId) (tick : Nat) :
    (httpUrlCacheAdd ctx id tick).place j =
      if j = id then { ctx.place id with cacheList := true } else ctx.place j := by
  unfold httpUrlCacheAdd
  split
  · rename_i set
    split
    · rename_i same
      cases same
      simp [Ctx.place,UrlEntry.place,set]
    · rfl
  · exact placeFlags (ctx.setCache _ _) id j

theorem listedCacheAdd (T : Listed ctx res hash) (tick : Nat) : Listed (httpUrlCacheAdd ctx id tick) res hash := by
  have place (i : UrlId) := placeCacheAdd ctx id i tick
  refine listedCongr T ?_ ?_ (fun i => ?_) (fun i => ?_) (fun i => ?_)
  · unfold httpUrlCacheAdd
    split <;> rfl
  · unfold httpUrlCacheAdd
    split <;> rfl
  all_goals
    rw [place i]
    split
    · rename_i same
      rw [same]
    · rfl

theorem tidyCacheAdd (T : Tidy ctx res hash slots) (tick : Nat)
    (owned : (ctx.place id).cacheList = true ∨ (ctx.place id).res = true) :
    TableInvariant (httpUrlCacheAdd ctx id tick) := by
  rcases Decidable.em ((ctx.urls id).urlFlags.cacheList = true) with set | clear
  · unfold httpUrlCacheAdd
    rw [if_pos set]
    exact ⟨res,hash,slots,T⟩
  · have place (i : UrlId) := placeCacheAdd ctx id i tick
    have listed : Listed (httpUrlCacheAdd ctx id tick) res hash := listedCacheAdd T.toListed tick
    have inUse := owned.resolve_left clear
    have off (k : Nat) : id ∉ slots k := by
      intro inside
      refine clear ((T.onSlot id).mpr ⟨k,?_,inside⟩)
      refine Nat.lt_of_not_le fun outside => ?_
      rw [T.slotsInside k outside] at inside
      cases inside
    have here : (ctx.writeTick + tick) % httpCacheTimeOut < httpCacheTimeOut := Nat.mod_lt _ (by decide)
    have links : (httpUrlCacheAdd ctx id tick).cacheLinks =
        listAddTail ctx.cacheLinks id ((ctx.writeTick + tick) % httpCacheTimeOut) := by
      unfold httpUrlCacheAdd
      rw [if_neg clear]
      rfl
    have count : (httpUrlCacheAdd ctx id tick).cacheNum = (ctx.cacheNum + 1) % 65536 := by
      unfold httpUrlCacheAdd
      rw [if_neg clear]
      rfl
    have free : (httpUrlCacheAdd ctx id tick).urlFree = ctx.urlFree := by
      unfold httpUrlCacheAdd
      split <;> rfl
    have more : queued (httpUrlCacheAdd ctx id tick) = insert id (queued ctx) := by
      ext i
      rw [memQueued,Finset.mem_insert,memQueued,place i]
      split <;> simp_all
    refine ⟨res,hash,_,listed,free.trans T.urlFree,fun i j first second same => ?_,
      links ▸ ringsAddTail T.slotRings off _,fun i => ?_,fun k outside => ?_,?_,fun i => ?_⟩
    · have hash (i : UrlId) : ((httpUrlCacheAdd ctx id tick).place i).urlHash = (ctx.place i).urlHash ∧
          ((httpUrlCacheAdd ctx id tick).place i).key = (ctx.place i).key := by
        rw [place i]
        split <;> simp_all
      rw [(hash i).1] at first
      rw [(hash j).1] at second
      rw [(hash i).2,(hash j).2] at same
      exact T.distinct i j first second same
    · have old := T.onSlot i
      simp only [memAddTail]
      rw [place i]
      split
      · rename_i same
        exact ⟨fun _ => ⟨_,here,Or.inr ⟨same,rfl⟩⟩,fun _ => rfl⟩
      · rename_i other
        rw [old]
        simp [other]
    · rw [Function.update_of_ne (by omega)]
      exact T.slotsInside k outside
    · rw [count,more,Finset.card_insert_of_notMem (by rw [memQueued]; exact clear),T.cacheNum]
      have small := queuedSmall ctx
      exact Nat.mod_eq_of_lt (by unfold httpSpUrlMax at small; omega)
    · rw [place i]
      split
      · exact fun _ => inUse
      · exact T.queuedInUse i

theorem cacheAddOwned {tick : Nat} (after : TableInvariant (httpUrlCacheAdd ctx id tick)) :
    (ctx.place id).res = true := by
  obtain ⟨res,hash,slots,T⟩ := after
  have owned := T.queuedInUse id
  rw [placeCacheAdd] at owned
  simpa using owned

theorem cacheGetLinks (h : httpUrlCacheGet ctx = some (id,ctx')) :
    ctx.cacheLinks.next (.head (ctx.writeTick % httpCacheTimeOut)) = .item id ∧
    ctx'.cacheLinks = listDelInit ctx.cacheLinks id ∧ ctx'.cacheNum = (ctx.cacheNum + 65535) % 65536 ∧
    ctx'.resLinks = ctx.resLinks ∧ ctx'.hashLinks = ctx.hashLinks ∧ ctx'.urlFree = ctx.urlFree ∧
    ∀ j,ctx'.place j = if j = id then { ctx.place id with cacheList := false } else ctx.place j := by
  unfold httpUrlCacheGet at h
  split at h <;> try contradiction
  rename_i first next
  cases Option.some.inj h
  exact ⟨next,rfl,rfl,rfl,rfl,rfl,placeFlags (ctx.setCache _ _) _⟩

theorem listedCacheGet (T : Listed ctx res hash) (h : httpUrlCacheGet ctx = some (id,ctx')) :
    Listed ctx' res hash := by
  obtain ⟨_,_,_,resLinks,hashLinks,_,place⟩ := cacheGetLinks h
  refine listedCongr T resLinks hashLinks (fun i => ?_) (fun i => ?_) (fun i => ?_)
  all_goals
    rw [place i]
    split
    · rename_i same
      rw [same]
    · rfl

theorem cacheGetFirst (T : Tidy ctx res hash slots) (h : httpUrlCacheGet ctx = some (id,ctx')) :
    ∃ rest,slots (ctx.writeTick % httpCacheTimeOut) = [] ++ id :: rest := by
  have first := ringsFirst T.slotRings (ctx.writeTick % httpCacheTimeOut)
  rw [(cacheGetLinks h).1] at first
  split at first <;> try contradiction
  rename_i i rest items
  cases Node.item.inj first
  exact ⟨rest,items⟩

theorem cacheGetOn (T : Tidy ctx res hash slots) (h : httpUrlCacheGet ctx = some (id,ctx')) :
    (ctx.place id).cacheList = true := by
  obtain ⟨rest,items⟩ := cacheGetFirst T h
  exact (T.onSlot id).mpr ⟨_,Nat.mod_lt _ (by decide),by rw [items]; simp⟩

theorem tidyCacheGet (T : Tidy ctx res hash slots) (h : httpUrlCacheGet ctx = some (id,ctx')) :
    TableInvariant ctx' ∧ (ctx'.place id).res = true := by
  obtain ⟨next,links,count,_,_,free,place⟩ := cacheGetLinks h
  have listed := listedCacheGet T.toListed h
  have here : ctx.writeTick % httpCacheTimeOut < httpCacheTimeOut := Nat.mod_lt _ (by decide)
  obtain ⟨rest,items⟩ := cacheGetFirst T h
  have on := cacheGetOn T h
  have fewer : queued ctx' = (queued ctx).erase id := by
    ext i
    rw [memQueued,Finset.mem_erase,memQueued,place i]
    split <;> simp_all
  have same (i : UrlId) : (ctx'.place i).urlHash = (ctx.place i).urlHash ∧ (ctx'.place i).key = (ctx.place i).key ∧
      (ctx'.place i).res = (ctx.place i).res := by
    rw [place i]
    split <;> simp_all
  refine ⟨⟨res,hash,_,listed,free.trans T.urlFree,fun i j first second key => ?_,links ▸ ringsDelInit T.slotRings items,
    fun i => ?_,fun k outside => ?_,?_,fun i set => ?_⟩,?_⟩
  · rw [(same i).1] at first
    rw [(same j).1] at second
    rw [(same i).2.1,(same j).2.1] at key
    exact T.distinct i j first second key
  · simp only [memDel T.slotRings items]
    rw [place i]
    split
    · rename_i same
      simp [same]
    · rename_i other
      rw [T.onSlot i]
      simp [other]
  · rw [Function.update_of_ne (by omega)]
    exact T.slotsInside k outside
  · rw [count,fewer,Finset.card_erase_of_mem (memQueued.mpr on),T.cacheNum]
    have small := queuedSmall ctx
    have some_ := Finset.card_pos.mpr ⟨id,memQueued.mpr on⟩
    unfold httpSpUrlMax at small
    omega
  · rw [(same i).2.2]
    rw [place i] at set
    split at set
    · cases set
    · exact T.queuedInUse i set
  · rw [(same id).2.2]
    exact T.queuedInUse id on

structure Fills (fill : UrlEntry → UrlEntry) (key : Bytes) : Prop where
  flags : ∀ e,(fill e).urlFlags = { res := true }
  key : ∀ e,(fill e).fileKeyName = key

theorem nextFreeFirst (T : Listed ctx res hash) (next : urlNextFree ctx = some id) :
    0 < ctx.urlFree ∧ ∃ rest,res .free = [] ++ id :: rest := by
  unfold urlNextFree at next
  split at next <;> try contradiction
  rename_i some_
  split at next <;> try contradiction
  rename_i i first
  cases Option.some.inj next
  have head := ringsFirst T.resRings .free
  rw [first] at head
  split at head <;> try contradiction
  rename_i i rest items
  cases Node.item.inj head
  exact ⟨some_,rest,items⟩

theorem notUsed (T : Listed ctx res hash) (free : id ∈ res .free) : (ctx.place id).res = false := by
  refine Bool.eq_false_iff.mpr fun set => ?_
  have same := T.resRings.apart free ((T.inUse id).mpr set)
  cases same

theorem notHashed (T : Listed ctx res hash) (free : id ∈ res .free) : (ctx.place id).urlHash = false :=
  Bool.eq_false_iff.mpr fun set => Bool.false_ne_true ((notUsed T free).symm.trans (T.hashedInUse id set))

section take
variable {fill : UrlEntry → UrlEntry} {key : Bytes}

theorem placeTake (F : Fills fill key) (ctx : Ctx) (id j : UrlId) :
    (urlTake ctx id fill).place j = if j = id then ⟨true,true,false,key⟩ else ctx.place j := by
  unfold urlTake
  rw [placeHashAdd]
  split
  · rw [placeSelf]
    simp [UrlEntry.place,UrlEntry.lease,F.flags,F.key]
  · rename_i other
    exact placeOther _ _ other

theorem takeHashLinks (F : Fills fill key) (ctx : Ctx) (id : UrlId) :
    (urlTake ctx id fill).hashLinks = listAddTail ctx.hashLinks id (urlBucket key) := by
  have ours (e : UrlEntry) : (UrlEntry.lease fill e).fileKeyName = key := F.key e
  unfold urlTake ngxHttpSnoopingUrlHashAdd
  rw [modifySelf,ours]
  rfl

theorem listedTake (T : Listed ctx res hash) (F : Fills fill key) (next : urlNextFree ctx = some id) :
    ∃ rest hash',res .free = id :: rest ∧
      Listed (urlTake ctx id fill) (Function.update (Function.update res .free rest) .use (id :: res .use)) hash' := by
  obtain ⟨_,rest,items⟩ := nextFreeFirst T next
  have free : id ∈ res .free := by rw [items]; simp
  have taken := ringsAdd (ringsDel T.resRings items) (ringsGone T.resRings items) .use
  have use : Function.update res .free rest .use = res .use := Function.update_of_ne (by decide) _ _
  simp only [List.nil_append] at taken
  rw [use] at taken
  have mem (i : UrlId) (m : ResList) : i ∈ Function.update (Function.update res .free rest) .use (id :: res .use) m ↔
      (i ∈ res m ∧ i ≠ id) ∨ i = id ∧ m = .use := by
    have added := memAdd (Function.update res .free rest) (k := .use) (i := id) (j := i) (m := m)
    rw [use] at added
    rw [added]
    exact or_congr_left (memDel T.resRings items)
  have off (b : Nat) : id ∉ hash b := fun inside =>
    Bool.false_ne_true ((notHashed T free).symm.trans ((T.hashed id b).mp inside).1)
  have place (i : UrlId) := placeTake F ctx id i
  refine ⟨rest,_,items,taken,fun i => ?_,fun i => ?_,takeHashLinks F ctx id ▸ ringsAddTail T.hashRings off _,
    fun i b => ?_,fun i => ?_⟩
  · simp only [mem]
    rcases Decidable.em (i = id) with same | other
    · exact Or.inr (Or.inr ⟨same,trivial⟩)
    · exact (T.somewhere i).imp (fun inside => Or.inl ⟨inside,other⟩) fun inside => Or.inl ⟨inside,other⟩
  · rw [mem,place i]
    split
    · rename_i same
      simp [same]
    · rename_i other
      simp [other,T.inUse i]
  · rw [memAddTail,place i]
    split
    · rename_i same
      simp [same,off b]
    · rename_i other
      simp [other,T.hashed i b]
  · rw [place i]
    split
    · simp
    · exact T.hashedInUse i

theorem tidyTake (T : Tidy ctx res hash slots) (F : Fills fill key) (next : urlNextFree ctx = some id)
    (new : ∀ i,(ctx.place i).urlHash = true → (ctx.place i).key ≠ key) : TableInvariant (urlTake ctx id fill) := by
  obtain ⟨rest,hash',items,listed⟩ := listedTake T.toListed F next
  have free : id ∈ res .free := by rw [items]; simp
  have idle : (ctx.place id).cacheList = false := Bool.eq_false_iff.mpr fun set =>
    Bool.false_ne_true ((notUsed T.toListed free).symm.trans (T.queuedInUse id set))
  have place (i : UrlId) := placeTake F ctx id i
  have cacheList (i : UrlId) : ((urlTake ctx id fill).place i).cacheList = (ctx.place i).cacheList := by
    rw [place i]
    split
    · rename_i same
      rw [same,idle]
    · rfl
  refine ⟨_,hash',slots,listed,?_,fun i j first second same => ?_,T.slotRings,fun i => ?_,T.slotsInside,?_,
    fun i set => ?_⟩
  · have count : (urlTake ctx id fill).urlFree = ctx.urlFree - 1 := rfl
    rw [count,T.urlFree,items,Function.update_of_ne (by decide),Function.update_self]
    rfl
  · rw [place i] at first same
    rw [place j] at second same
    rcases Decidable.em (i = id) with ours | other <;> rcases Decidable.em (j = id) with ours' | other'
    · exact ours.trans ours'.symm
    · simp only [ours,other',if_true,if_false] at second same
      exact (new j second same.symm).elim
    · simp only [ours',other,if_true,if_false] at first same
      exact (new i first same).elim
    · simp only [other,other',if_false] at first second same
      exact T.distinct i j first second same
  · rw [cacheList i]
    exact T.onSlot i
  · have same : queued (urlTake ctx id fill) = queued ctx := by
      ext i
      rw [memQueued,memQueued,cacheList i]
    rw [same]
    exact T.cacheNum
  · rw [cacheList i] at set
    rw [place i]
    split
    · rfl
    · exact T.queuedInUse i set

theorem takeNew (T : Listed ctx res hash) (F : Fills fill key) (next : urlNextFree ctx = some id)
    (after : TableInvariant (urlTake ctx id fill)) (i : UrlId) (set : (ctx.place i).urlHash = true) :
    (ctx.place i).key ≠ key := by
  intro same
  obtain ⟨_,rest,items⟩ := nextFreeFirst T next
  have other : i ≠ id := by
    rintro rfl
    have clear := notHashed T (items.symm ▸ List.mem_cons_self : i ∈ res .free)
    exact Bool.false_ne_true (clear.symm.trans set)
  obtain ⟨_,_,_,after⟩ := after
  have both := after.distinct i id
  rw [placeTake F,placeTake F,if_neg other,if_pos rfl] at both
  exact other (both set rfl same)

end take

section release

theorem placeRelease (ctx : Ctx) (id j : UrlId) :
    (urlRelease ctx id).place j = if j = id then ⟨false,false,false,(ctx.place id).key⟩ else ctx.place j := by
  unfold urlRelease
  refine (placeFlags (Ctx.setRes _ _ _) id j).trans ?_
  split
  · split <;> simp [Ctx.place,UrlEntry.place,UrlEntry.setFlags,ngxHttpSnoopingUrlHashDel,Ctx.setFlags,Ctx.setRes,Ctx.setHash]
  · rename_i other
    split
    · exact (placeHashDel ctx id j).trans (if_neg other)
    · rfl

theorem releaseLinks (ctx : Ctx) (id : UrlId) :
    (urlRelease ctx id).resLinks = listAdd (listDel ctx.resLinks id) id .free ∧
    (urlRelease ctx id).urlFree = ctx.urlFree + 1 ∧ (urlRelease ctx id).cacheLinks = ctx.cacheLinks ∧
    (urlRelease ctx id).cacheNum = ctx.cacheNum ∧
    (urlRelease ctx id).hashLinks = if (ctx.place id).urlHash then listDel ctx.hashLinks id else ctx.hashLinks := by
  unfold urlRelease
  rcases Bool.eq_false_or_eq_true (ctx.urls id).urlFlags.urlHash with set | clear
  · rw [if_pos set]
    exact ⟨rfl,rfl,rfl,rfl,(if_pos set).symm⟩
  · have off : ¬ (ctx.urls id).urlFlags.urlHash = true := Bool.eq_false_iff.mp clear
    rw [if_neg off]
    exact ⟨rfl,rfl,rfl,rfl,(if_neg off).symm⟩

theorem listedRelease (T : Listed ctx res hash) {k : ResList} (here : id ∈ res k) :
    ∃ as bs hash',res k = as ++ id :: bs ∧ Listed (urlRelease ctx id)
      (Function.update (Function.update res k (as ++ bs)) .free (id :: Function.update res k (as ++ bs) .free))
      hash' := by
  obtain ⟨as,bs,items⟩ := List.append_of_mem here
  obtain ⟨resLinks,_,_,_,hashLinks⟩ := releaseLinks ctx id
  have place (i : UrlId) := placeRelease ctx id i
  have freed := ringsAdd (ringsDel T.resRings items) (ringsGone T.resRings items) .free
  have mem (i : UrlId) (m : ResList) : i ∈ Function.update (Function.update res k (as ++ bs)) .free
      (id :: Function.update res k (as ++ bs) .free) m ↔ (i ∈ res m ∧ i ≠ id) ∨ i = id ∧ m = .free := by
    rw [memAdd]
    exact or_congr_left (memDel T.resRings items)
  obtain ⟨hash',rings,hashed⟩ : ∃ hash',Rings (urlRelease ctx id).hashLinks hash' ∧
      ∀ i b,i ∈ hash' b ↔ i ∈ hash b ∧ i ≠ id := by
    rw [hashLinks]
    split
    · rename_i set
      obtain ⟨cs,ds,bucket⟩ := List.append_of_mem ((T.hashed id _).mpr ⟨set,rfl⟩)
      exact ⟨_,ringsDel T.hashRings bucket,fun i b => memDel T.hashRings bucket⟩
    · rename_i clear
      refine ⟨hash,T.hashRings,fun i b => ⟨fun inside => ⟨inside,?_⟩,fun inside => inside.1⟩⟩
      rintro rfl
      exact clear ((T.hashed i b).mp inside).1
  refine ⟨as,bs,hash',items,resLinks ▸ freed,fun i => ?_,fun i => ?_,rings,fun i b => ?_,fun i => ?_⟩
  · simp only [mem]
    rcases Decidable.em (i = id) with same | other
    · exact Or.inl (Or.inr ⟨same,trivial⟩)
    · exact (T.somewhere i).imp (fun inside => Or.inl ⟨inside,other⟩) fun inside => Or.inl ⟨inside,other⟩
  · rw [mem,place i]
    split
    · rename_i same
      simp [same]
    · rename_i other
      simp [other,T.inUse i]
  · rw [hashed,place i]
    split
    · rename_i same
      simp [same]
    · rename_i other
      simp [other,T.hashed i b]
  · rw [place i]
    split
    · simp
    · exact T.hashedInUse i

theorem queuedRelease (ctx : Ctx) (id : UrlId) : queued (urlRelease ctx id) = (queued ctx).erase id := by
  ext i
  rw [memQueued,Finset.mem_erase,memQueued,placeRelease]
  split <;> simp_all

theorem tidyRelease (T : Tidy ctx res hash slots) (owned : (ctx.place id).res = true)
    (idle : (ctx.place id).cacheList = false) : TableInvariant (urlRelease ctx id) := by
  obtain ⟨as,bs,hash',items,listed⟩ := listedRelease T.toListed ((T.inUse id).mpr owned)
  obtain ⟨_,urlFree,cacheLinks,cacheNum,_⟩ := releaseLinks ctx id
  have place (i : UrlId) := placeRelease ctx id i
  have cacheList (i : UrlId) : ((urlRelease ctx id).place i).cacheList = (ctx.place i).cacheList := by
    rw [place i]
    split
    · rename_i same
      rw [same,idle]
    · rfl
  refine ⟨_,hash',slots,listed,?_,fun i j first second same => ?_,cacheLinks ▸ T.slotRings,fun i => ?_,
    T.slotsInside,?_,fun i set => ?_⟩
  · rw [urlFree,T.urlFree,Function.update_self,Function.update_of_ne (by decide)]
    rfl
  · rw [place i] at first same
    rw [place j] at second same
    split at first <;> try contradiction
    split at second <;> try contradiction
    rename_i other other'
    rw [if_neg other,if_neg other'] at same
    exact T.distinct i j first second same
  · rw [cacheList i]
    exact T.onSlot i
  · rw [cacheNum,queuedRelease,T.cacheNum,Finset.erase_eq_of_notMem (by rw [memQueued,idle]; simp)]
  · rw [cacheList i] at set
    rw [place i]
    split
    · rename_i same
      rw [same,idle] at set
      contradiction
    · exact T.queuedInUse i set

theorem releaseIdle (T : Tidy ctx res hash slots) (after : TableInvariant (urlRelease ctx id)) :
    (ctx.place id).cacheList = false := by
  refine Bool.eq_false_iff.mpr fun set => ?_
  obtain ⟨_,_,_,after⟩ := after
  have count := after.cacheNum
  rw [(releaseLinks ctx id).2.2.2.1,queuedRelease,T.cacheNum] at count
  exact absurd count (Nat.ne_of_gt (Finset.card_erase_lt_of_mem (memQueued.mpr set)))

end release

theorem initFill (n : Nat) (small : n ≤ httpSpUrlMax) : initLinks n small = fill .free n small := by
  induction n with
  | zero => rfl
  | succ n ih => exact congrArg (fun L => listAdd L _ _) (ih _)

theorem initRings (n : Nat) (small : n ≤ httpSpUrlMax) : ∃ free : List UrlId,
    Rings (initLinks n small) (fun k => if k = .free then free else []) ∧ (∀ id : UrlId,id ∈ free ↔ id.val < n) ∧
    free.length = n := by
  obtain ⟨free,rings,mem,size⟩ := ringsFill ResList.free n small
  have lists : Function.update (fun _ => []) ResList.free free = fun k => if k = .free then free else [] :=
    funext fun k => Function.update_apply _ _ _ k
  exact ⟨free,by rw [initFill,← lists]; exact rings,mem,size⟩

theorem tidyInit (jiffies : Nat) : TableInvariant (ngxHttpSnoopingInit jiffies) := by
  obtain ⟨free,rings,mem,size⟩ := initRings httpSpUrlMax (Nat.le_refl _)
  have none_ : queued (ngxHttpSnoopingInit jiffies) = ∅ := by
    simp [queued,Ctx.place,UrlEntry.place,ngxHttpSnoopingInit]
  refine ⟨_,fun _ => [],fun _ => [],⟨rings,fun id => Or.inl ?_,fun id => ?_,emptyRings,fun id b => ?_,fun id => ?_⟩,
    size.symm,fun i j first => ?_,emptyRings,fun id => ?_,fun _ _ => rfl,?_,fun id => ?_⟩
  · exact (mem id).mpr id.isLt
  · simp [Ctx.place,UrlEntry.place,ngxHttpSnoopingInit]
  · simp [Ctx.place,UrlEntry.place,ngxHttpSnoopingInit]
  · simp [Ctx.place,UrlEntry.place,ngxHttpSnoopingInit]
  · cases first
  · simp [Ctx.place,UrlEntry.place,ngxHttpSnoopingInit]
  · rw [none_]
    rfl
  · simp [Ctx.place,UrlEntry.place,ngxHttpSnoopingInit]

end MipsElfExec.Snooping
