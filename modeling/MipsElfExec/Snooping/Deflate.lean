import MipsElfExec.Lib.Zlib
import MipsElfExec.Snooping.Save

/-! How a deflated body is written out: every buffer is fed to inflate, behind a header that is
put before the stream when it does not seem to have one. The file is a new one and takes all. -/
namespace MipsElfExec.Snooping
open CString Download Zlib

def deflateBufLen : Nat := 24 * 1024

def dummyHead : Bytes := [0x78,0x01]

-- The two bytes are looked at in the memory of the first buffer, however many of them were captured.
def needsHeader (memory : Bytes) : Bool := memory.getD 0 0 != 0x78 && memory.getD 1 0 != 0x01

inductive Inflated (σ : Type) where
  | next (stream : Option σ) (file : File)
  | failed (file : File)

section code
variable {F : Format} {σ : Type} (D : Decoder F σ)

-- Once inflateEnd was called there is no stream, and inflate fails.
def inflateLoop : Nat → Option σ → Bytes → File → Option (Inflated σ)
  | 0,_,_,_ => none
  | _ + 1,none,_,file => some (.failed file)
  | fuel + 1,some s,input,file =>
    let c := D.inflate s input deflateBufLen
    let wrote := if c.out = [] then file else file.write c.out
    match c.code with
    | .streamEnd => some (.next none wrote)
    | .error => some (.failed file)
    | .ok | .bufError =>
      if c.out.length = deflateBufLen then inflateLoop fuel (some c.state) c.rest wrote
      else some (.next (some c.state) wrote)

def bufsInflate (fuel : Nat) (data : Nat → Bytes) : Nat → List Nat → Option σ → File → Option (WriteOutcome × File)
  | _,[],_,file => some (.saved,file)
  | i,k :: ks,stream,file =>
    (inflateLoop D fuel stream (data k) file).bind fun
      | .next stream file => bufsInflate fuel data (i + 1) ks stream file
      | .failed file => some (.broken i,file)

def ngxHttpDeflateWrite (fuel : Nat) (ctx : Ctx) (id : UrlId) (behind : Nat → Bytes) (opens inits : Bool) :
    Option (Ctx × Option Bytes) :=
  if opens = false then some (bodyWrite ctx id .failed,none)
  else if inits = false then some (bodyWrite ctx id .failed,some [])
  else
    match (ctx.urls id).dataBufList with
    | [] => none
    | k :: ks =>
      let head : Call σ :=
        if needsHeader (ctx.bufs.data k ++ behind k) then D.inflate D.init dummyHead deflateBufLen
        else ⟨D.init,[],[],.ok⟩
      if head.code ≠ .ok then some (bodyWrite ctx id (.broken 0),some [])
      else
        (bufsInflate D fuel ctx.bufs.data 0 (k :: ks) (some head.state) ⟨[],false,0⟩).map
          fun done => (bodyWrite ctx id done.1,some done.2.content)

end code

def Decoded (id : UrlId) (x : Bytes) (done : Option (Ctx × Option Bytes)) : Prop :=
  ∃ last : Ctx,done = some (last,some x) ∧ (last.urls id).urlFlags.resWrite = true

def Reads (F : Format) (front last x : Bytes) : Prop :=
  (∃ out,F.read front = .more out) ∧ (F.read (front ++ last) = .more x ∨ ∃ used,F.read (front ++ last) = .done x used)

section loop
variable {F : Format} {σ : Type} {D : Decoder F σ} {s : σ} {fed given : Bytes}

def written (bs : Bytes) : File := ⟨bs,false,bs.length⟩

theorem writtenMore (given out : Bytes) :
    (if out = [] then written given else (written given).write out) = written (given ++ out) := by
  have at_ : Positioned (written given) := ⟨rfl,Nat.le_refl _⟩
  have wrote : (written given).write out = written (given ++ out) := by
    rw [writeAt at_]
    unfold written
    dsimp only
    rw [List.take_length,List.drop_of_length_le (by omega),List.append_nil,List.length_append]
  split
  · rename_i none_
    rw [none_,List.append_nil]
  · exact wrote

def LoopedTo (D : Decoder F σ) (fed : Bytes) (done : Option (Inflated σ)) : Prop :=
  match F.read fed with
  | .more out => ∃ s,done = some (.next (some s) (written out)) ∧ D.At s fed out
  | .done out _ => done = some (.next none (written out))
  | .bad _ => ∃ file,done = some (.failed file)

theorem loopReads (at_ : D.At s fed given) (input : Bytes) {fuel : Nat}
    (enough : (F.read (fed ++ input)).out.length < given.length + fuel) :
    LoopedTo D (fed ++ input) (inflateLoop D fuel (some s) input (written given)) := by
  have grown (fed input : Bytes) := (F.streaming.grows fed input).length_le
  induction fuel generalizing s fed given input with
  | zero =>
    have told := (D.told at_).length_le
    have more := grown fed input
    omega
  | succ fuel ih =>
    have room : 0 < deflateBufLen := by decide
    have fits := D.fits input at_ room
    obtain ⟨used,whole,told,goes⟩ := D.serves input at_ room
    unfold inflateLoop
    dsimp only
    rw [writtenMore]
    generalize D.inflate s input deflateBufLen = c at fits whole told goes
    subst whole
    rw [← List.append_assoc] at enough ⊢
    have going (on : D.At c.state (fed ++ used) (given ++ c.out) ∧
        (c.out.length < deflateBufLen → c.rest = [] ∧ F.read (fed ++ used) = .more (given ++ c.out))) :
        LoopedTo D (fed ++ used ++ c.rest) (if c.out.length = deflateBufLen then
          inflateLoop D fuel (some c.state) c.rest (written (given ++ c.out))
        else some (.next (some c.state) (written (given ++ c.out)))) := by
      split
      · rename_i full
        exact ih on.1 c.rest (by rw [List.length_append]; omega)
      · obtain ⟨none_,more⟩ := on.2 (by omega)
        unfold LoopedTo
        rw [none_,List.append_nil,more]
        exact ⟨c.state,rfl,on.1⟩
    unfold Goes at goes
    cases code : c.code with
    | ok | bufError =>
      rw [code] at goes
      exact going goes
    | streamEnd =>
      rw [code] at goes
      obtain ⟨n,done⟩ := goes
      unfold LoopedTo
      rw [(F.streaming.ends c.rest done).2]
    | error =>
      rw [code] at goes
      obtain ⟨o,bad⟩ := goes
      unfold LoopedTo
      rw [F.streaming.fails c.rest bad]
      exact ⟨_,rfl⟩

theorem bufsReads {data : Nat → Bytes} {x : Bytes} (k : Nat) (ks : List Nat) (i : Nat) {fuel : Nat} (at_ : D.At s fed given)
    (going : ∃ out,F.read fed = .more out)
    (enough : (F.read (fed ++ (k :: ks).flatMap data)).out.length < fuel) :
    (∃ file,bufsInflate D fuel data i (k :: ks) (some s) (written given) = some (.saved,file) ∧ file.content = x) ↔
      Reads F (fed ++ (k :: ks).dropLast.flatMap data) (data ((k :: ks).getLast (List.cons_ne_nil k ks))) x := by
  induction ks generalizing k i s fed given with
  | nil =>
    rw [List.flatMap_cons,List.flatMap_nil,List.append_nil] at enough
    have looped := loopReads at_ (data k) (Nat.lt_add_left _ enough)
    have front : Reads F (fed ++ [k].dropLast.flatMap data) (data ([k].getLast (List.cons_ne_nil k []))) x ↔
        (F.read (fed ++ data k) = .more x ∨ ∃ used,F.read (fed ++ data k) = .done x used) := by
      unfold Reads
      rw [List.dropLast_singleton,List.flatMap_nil,List.append_nil,List.getLast_singleton]
      exact and_iff_right going
    rw [front]
    unfold bufsInflate
    unfold LoopedTo at looped
    cases now : F.read (fed ++ data k) with
    | more out =>
      rw [now] at looped
      obtain ⟨s',done,_⟩ := looped
      rw [done]
      simp [bufsInflate,written]
    | done out used =>
      rw [now] at looped
      rw [looped]
      simp [bufsInflate,written]
    | bad out =>
      rw [now] at looped
      obtain ⟨file,done⟩ := looped
      rw [done]
      simp
  | cons k' ks ih =>
    rw [List.flatMap_cons,← List.append_assoc] at enough
    have sofar := (F.streaming.grows (fed ++ data k) ((k' :: ks).flatMap data)).length_le
    have looped := loopReads at_ (data k) (Nat.lt_add_left given.length (Nat.lt_of_le_of_lt sofar enough))
    rw [List.dropLast_cons_cons,List.flatMap_cons,← List.append_assoc,List.getLast_cons_cons]
    unfold bufsInflate
    unfold LoopedTo at looped
    cases now : F.read (fed ++ data k) with
    | more out =>
      rw [now] at looped
      obtain ⟨s',done,at_'⟩ := looped
      rw [done]
      exact ih k' (i + 1) at_' ⟨out,now⟩ enough
    | done out used =>
      rw [now] at looped
      rw [looped]
      refine iff_of_false ?_ fun reads => ?_
      · rintro ⟨file,saved,_⟩
        obtain ⟨fuel,rfl⟩ := Nat.exists_eq_succ_of_ne_zero (Nat.ne_zero_of_lt enough)
        cases saved
      · obtain ⟨out',front⟩ := reads.1
        cases (F.streaming.ends _ now).2.symm.trans front
    | bad out =>
      rw [now] at looped
      obtain ⟨file,done⟩ := looped
      rw [done]
      refine iff_of_false (fun saved => ?_) fun reads => ?_
      · obtain ⟨_,saved,_⟩ := saved
        cases saved
      · obtain ⟨out',front⟩ := reads.1
        cases (F.streaming.fails _ now).symm.trans front

end loop

section whole
variable {F : Format} {σ : Type} {D : Decoder (zlib F) σ} {x : Bytes} {ctx : Ctx} {id : UrlId}

theorem zlibPlain (F : Format) (bs : Bytes) : (zlib F).read (dummyHead ++ bs) = (readChecked F bs).behind 2 := by
  have body : zlibBody F 0x78 0x01 bs = readChecked F bs := by
    unfold zlibBody
    rw [if_neg (by decide),if_neg (by decide)]
  unfold dummyHead
  rw [List.cons_append,List.cons_append,List.nil_append,zlibRead,body]
  cases readChecked F bs <;> rfl

theorem dummyReads (F : Format) : (zlib F).read dummyHead = .more [] := by
  have plain := zlibPlain F []
  unfold readChecked at plain
  rw [F.starts,List.append_nil] at plain
  exact plain

theorem dummyGoes (D : Decoder (zlib F) σ) : (D.inflate D.init dummyHead deflateBufLen).code = .ok ∧
    D.At (D.inflate D.init dummyHead deflateBufLen).state dummyHead [] := by
  have room : 0 < deflateBufLen := by decide
  have head := dummyReads F
  obtain ⟨used,whole,told,goes⟩ := D.serves dummyHead D.start room
  have stuck := D.stuck dummyHead D.start room
  generalize D.inflate D.init dummyHead deflateBufLen = c at whole told goes stuck
  simp only [List.nil_append] at told goes
  have more : ∃ out,(zlib F).read used = .more out := by
    rw [whole] at head
    exact moreBefore head
  obtain ⟨out,more⟩ := more
  have none_ : out = [] := by
    have grows := (zlib F).streaming.grows used c.rest
    rw [← whole,head,more] at grows
    exact List.prefix_nil.mp grows
  have nothing : c.out = [] := by
    rw [more,none_] at told
    exact List.prefix_nil.mp told
  unfold Goes at goes
  cases code : c.code with
  | ok =>
    rw [code] at goes
    have all := (goes.2 (by rw [nothing]; exact room)).1
    rw [all,List.append_nil] at whole
    have at_ := goes.1
    rw [← whole,nothing] at at_
    exact ⟨rfl,at_⟩
  | bufError =>
    rw [code] at goes
    have all := (goes.2 (by rw [nothing]; exact room)).1
    cases (stuck code).symm.trans all
  | streamEnd =>
    rw [code] at goes
    obtain ⟨n,done⟩ := goes
    cases more.symm.trans done
  | error =>
    rw [code] at goes
    obtain ⟨o,bad⟩ := goes
    cases more.symm.trans bad

def fedHead (ctx : Ctx) (id : UrlId) (behind : Nat → Bytes) : Bytes :=
  match (ctx.urls id).dataBufList with
  | [] => []
  | k :: _ => if needsHeader (ctx.bufs.data k ++ behind k) then dummyHead else []

def lastBuf (ctx : Ctx) (id : UrlId) : Bytes := ((ctx.urls id).dataBufList.getLast?.map ctx.bufs.data).getD []

def frontBufs (ctx : Ctx) (id : UrlId) : Bytes := (ctx.urls id).dataBufList.dropLast.flatMap ctx.bufs.data

theorem frontLast (ctx : Ctx) (id : UrlId) : frontBufs ctx id ++ lastBuf ctx id = ctx.captured id := by
  unfold frontBufs lastBuf Ctx.captured
  rcases List.eq_nil_or_concat (ctx.urls id).dataBufList with none_ | ⟨front,k,list⟩
  · rw [none_]
    rfl
  · rw [list,List.concat_eq_append,List.dropLast_concat,List.getLast?_concat,List.flatMap_append]
    simp

theorem headGoes (D : Decoder (zlib F) σ) (dummy : Bool) : ∃ s,
    (if dummy then D.inflate D.init dummyHead deflateBufLen else ⟨D.init,[],[],.ok⟩ : Call σ).code = .ok ∧
    (if dummy then D.inflate D.init dummyHead deflateBufLen else ⟨D.init,[],[],.ok⟩ : Call σ).state = s ∧
    D.At s (if dummy then dummyHead else []) [] ∧
    ∃ out,(zlib F).read (if dummy then dummyHead else []) = .more out := by
  cases dummy with
  | false => exact ⟨_,rfl,rfl,D.start,_,(zlib F).starts⟩
  | true => exact ⟨_,(dummyGoes D).1,rfl,(dummyGoes D).2,_,dummyReads F⟩

theorem deflateReads (behind : Nat → Bytes) (clear : (ctx.urls id).urlFlags.resWrite = false)
    (some_ : (ctx.urls id).dataBufList ≠ []) {fuel : Nat}
    (enough : ((zlib F).read (fedHead ctx id behind ++ ctx.captured id)).out.length < fuel) :
    Decoded id x (ngxHttpDeflateWrite D fuel ctx id behind true true) ↔
      Reads (zlib F) (fedHead ctx id behind ++ frontBufs ctx id) (lastBuf ctx id) x := by
  have flag (outcome : WriteOutcome) := (bodyWriteFlags ctx id outcome).2 clear
  unfold Ctx.captured fedHead at enough
  unfold Decoded ngxHttpDeflateWrite fedHead frontBufs lastBuf
  rw [if_neg Bool.noConfusion,if_neg Bool.noConfusion]
  cases list : (ctx.urls id).dataBufList with
  | nil => exact absurd list some_
  | cons k ks =>
    rw [list] at enough
    dsimp only at enough ⊢
    obtain ⟨s,ok,state,at_,going⟩ := headGoes D (needsHeader (ctx.bufs.data k ++ behind k))
    rw [if_neg (by rw [ok]; exact fun no => no rfl),state,List.getLast?_eq_some_getLast (List.cons_ne_nil k ks),
      Option.map_some,Option.getD_some,← bufsReads k ks 0 at_ going enough]
    constructor
    · rintro ⟨last,done,saved⟩
      obtain ⟨⟨outcome,file⟩,wrote,same⟩ := Option.map_eq_some_iff.mp done
      cases same
      rw [flag,beq_iff_eq] at saved
      cases saved
      exact ⟨file,wrote,rfl⟩
    · rintro ⟨file,wrote,same⟩
      exact ⟨bodyWrite ctx id .saved,Option.map_eq_some_iff.mpr ⟨_,wrote,by rw [same]⟩,flag .saved⟩

inductive Wrapping where
  | raw | zlib
  deriving DecidableEq, Repr

def Wrapping.format (F : Format) : Wrapping → Format
  | .raw => F
  | .zlib => Zlib.zlib F

/-- The header is put before a raw stream and before no other, and the last buffer belongs to the stream; or what
is read instead happens to be the same. -/
def Recognised (F : Format) (kind : Wrapping) (ctx : Ctx) (id : UrlId) (behind : Nat → Bytes) (x : Bytes) : Prop :=
  match kind,fedHead ctx id behind with
  | .raw,[] => Reads (zlib F) (frontBufs ctx id) (lastBuf ctx id) x
  | .raw,_ :: _ => True
  | .zlib,[] => lastBuf ctx id ≠ []
  | .zlib,head => Reads (zlib F) (head ++ frontBufs ctx id) (lastBuf ctx id) x

theorem fedHeadOr (ctx : Ctx) (id : UrlId) (behind : Nat → Bytes) :
    fedHead ctx id behind = [] ∨ fedHead ctx id behind = dummyHead := by
  unfold fedHead
  split
  · exact Or.inl rfl
  · split
    · exact Or.inr rfl
    · exact Or.inl rfl

theorem rawReads {bs cs : Bytes} (whole : F.Encodes (bs ++ cs) x) : Reads (zlib F) (dummyHead ++ bs) cs x := by
  have all : (zlib F).read (dummyHead ++ (bs ++ cs)) = .more x := by
    rw [zlibPlain]
    unfold readChecked
    rw [whole]
    dsimp only
    rw [List.drop_length,if_pos (by decide)]
    rfl
  rw [← List.append_assoc] at all
  exact ⟨moreBefore all,Or.inl all⟩

theorem wrappedReads {bs cs : Bytes} (whole : F.Encodes (bs ++ cs) x) : Reads F bs cs x ↔ cs ≠ [] := by
  constructor
  · rintro ⟨⟨out,front⟩,_⟩ rfl
    rw [List.append_nil] at whole
    cases front.symm.trans whole
  · exact fun some_ => ⟨encodesFront whole some_,Or.inr ⟨_,whole⟩⟩

/-- For a raw deflate format and any decoder of it, and for every way a stream lies in the buffers. -/
theorem deflateDecodedExactly (D : Decoder (zlib F) σ) (kind : Wrapping) (behind : Nat → Bytes)
    (clear : (ctx.urls id).urlFlags.resWrite = false) (enc : (kind.format F).Encodes (ctx.captured id) x) :
    ∃ enough,∀ fuel,enough ≤ fuel →
      (Decoded id x (ngxHttpDeflateWrite D fuel ctx id behind true true) ↔ Recognised F kind ctx id behind x) := by
  refine ⟨((zlib F).read (fedHead ctx id behind ++ ctx.captured id)).out.length + 1,fun fuel enough => ?_⟩
  have some_ : (ctx.urls id).dataBufList ≠ [] := fun none_ => encodesSome enc (by unfold Ctx.captured; rw [none_]; rfl)
  rw [deflateReads behind clear some_ (Nat.lt_of_succ_le enough)]
  rw [← frontLast] at enc
  unfold Recognised
  rcases fedHeadOr ctx id behind with none_ | dummy
  · rw [none_,List.nil_append]
    cases kind with
    | raw => exact Iff.rfl
    | zlib => exact wrappedReads enc
  · rw [dummy]
    cases kind with
    | raw => exact iff_of_true (rawReads enc) trivial
    | zlib => exact Iff.rfl

def deflatedCtx (pieces : List Bytes) : Ctx :=
  let ctx := (ngxHttpSnoopingInit 0).modify 0 fun e => { e with dataBufList := List.range pieces.length,encodingType := .deflate }
  { ctx with bufs := { ctx.bufs with data := fun k => pieces.getD k [] } }

theorem storedDecoded : ∃ enough,∀ fuel,enough ≤ fuel → Decoded 0 (ascii "ab") (ngxHttpDeflateWrite
    (rereading (zlib stored)) fuel (deflatedCtx [[1],[2,0,253,255,97],[98]]) 0 (fun _ => [0]) true true) := by
  obtain ⟨enough,exact_⟩ := @deflateDecodedExactly stored _ (ascii "ab") (deflatedCtx [[1],[2,0,253,255,97],[98]]) 0
    (rereading (zlib stored)) .raw (fun _ => [0]) rfl (by unfold Format.Encodes; decide)
  exact ⟨enough,fun fuel le => (exact_ fuel le).mpr trivial⟩

theorem storedRefused : stored.Encodes ((deflatedCtx [[1,1,0,254,255,97]]).captured 0) (ascii "a") ∧
    ∃ enough,∀ fuel,enough ≤ fuel → ¬Decoded 0 (ascii "a") (ngxHttpDeflateWrite (rereading (zlib stored)) fuel
      (deflatedCtx [[1,1,0,254,255,97]]) 0 (fun _ => []) true true) := by
  have bad : (zlib stored).read (fedHead (deflatedCtx [[1,1,0,254,255,97]]) 0 (fun _ => []) ++
      (deflatedCtx [[1,1,0,254,255,97]]).captured 0) = .bad [] := by decide
  refine ⟨by unfold Format.Encodes; decide,1,fun fuel enough decoded => ?_⟩
  have reads := (deflateReads (fun _ => []) rfl (List.cons_ne_nil 0 []) (by rw [bad]; exact enough)).mp decoded
  rw [← frontLast,← List.append_assoc] at bad
  rcases reads.2 with more | ⟨used,done⟩
  · cases bad.symm.trans more
  · cases bad.symm.trans done

end whole

end MipsElfExec.Snooping
