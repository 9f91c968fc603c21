import MipsElfExec.Download.Info
import MipsElfExec.Snooping.Capture
import MipsElfExec.Snooping.Pass
import MipsElfExec.Snooping.Work

/-! How a captured body is written out: the file is opened as it is, not emptied, and what the
calls of write(2) returned is not looked at. -/
namespace MipsElfExec.Snooping
open CString Download

def bufsWrite (data : Nat → Bytes) : List Nat → List (List (Option Nat)) → File → Option File
  | [],_,file => some file
  | k :: ks,results,file =>
    (ngxHttpBufWrite (results.headD []) (data k)).bind fun took => bufsWrite data ks results.tail (file.write took)

-- Under the name of the entry there is a file with these bytes, or none; open(2) may fail.
def ngxHttpNoneWrite (ctx : Ctx) (id : UrlId) (old : Option Bytes) (opens : Bool) (results : List (List (Option Nat))) :
    Option (Ctx × Option Bytes) :=
  if opens = false then some (bodyWrite ctx id .failed,old)
  else (bufsWrite ctx.bufs.data (ctx.urls id).dataBufList results ⟨old.getD [],false,0⟩).map
    fun file => (bodyWrite ctx id .saved,some file.content)

structure Published (ctx : Ctx) (id : UrlId) (done : Ctx × Option Bytes) : Prop where
  exact_ : (done.1.urls id).urlFlags.resWrite = true → done.2 = some (ctx.captured id)
  dropped : (done.1.urls id).urlFlags.resWrite = false →
    (done.1.urls id).urlFlags.resCache = false ∧ (done.1.urls id).urlFlags.cacheBufAlloc = false

def taken : List (Option Nat) → Nat → Nat
  | [],_ => 0
  | none :: _,_ => 0
  | some n :: results,size => if n < size then n + taken results (size - n) else size

def accepted (data : Nat → Bytes) : List Nat → List (List (Option Nat)) → Bytes
  | [],_ => []
  | k :: ks,results => (data k).take (taken (results.headD []) (data k).length) ++ accepted data ks results.tail

def Covers (text old written : Bytes) : Prop :=
  if written.length = text.length then old.length ≤ text.length
  else written <+: text ∧ old.drop written.length = text.drop written.length
instance (text old written : Bytes) : Decidable (Covers text old written) := by unfold Covers; infer_instance

section file
variable {file : File} {data : Nat → Bytes}

structure Positioned (file : File) : Prop where
  here : file.append = false
  inside : file.pos ≤ file.content.length

theorem writeAt (at_ : Positioned file) (bs : Bytes) : file.write bs =
    ⟨file.content.take file.pos ++ bs ++ file.content.drop (file.pos + bs.length),false,file.pos + bs.length⟩ := by
  unfold File.write
  rw [if_neg (by rw [at_.here]; exact Bool.false_ne_true)]

theorem writeNothing (at_ : Positioned file) : file.write [] = file := by
  rw [writeAt at_,List.append_nil,List.length_nil,Nat.add_zero,List.take_append_drop,← at_.here]

theorem writePositioned (at_ : Positioned file) (bs : Bytes) : Positioned (file.write bs) := by
  rw [writeAt at_]
  refine ⟨rfl,?_⟩
  have inside := at_.inside
  rw [List.length_append,List.length_append,List.length_take]
  dsimp only
  omega

theorem writeTwice (at_ : Positioned file) (bs cs : Bytes) : (file.write bs).write cs = file.write (bs ++ cs) := by
  have front : (file.content.take file.pos ++ bs).length = file.pos + bs.length := by
    rw [List.length_append,List.length_take_of_le at_.inside]
  rw [writeAt (writePositioned at_ bs),writeAt at_,writeAt at_]
  dsimp only
  rw [List.take_left' front,← front,List.drop_length_add_append,List.drop_drop,front,List.append_assoc _ bs cs,
    List.length_append,Nat.add_assoc]

theorem bufWriteTaken {results : List (Option Nat)} {text out : Bytes} (wrote : ngxHttpBufWrite results text = some out) :
    out = text.take (taken results text.length) := by
  induction results generalizing text out with
  | nil => cases wrote
  | cons result results ih =>
    cases result with
    | none =>
      cases Option.some.inj wrote
      exact (List.take_zero).symm
    | some n =>
      unfold ngxHttpBufWrite at wrote
      unfold taken
      split at wrote
      · rename_i all
        rw [if_neg (by omega),List.take_length]
        exact (Option.some.inj wrote).symm
      · split at wrote <;> try contradiction
        rename_i few
        obtain ⟨rest,more,rfl⟩ := Option.map_eq_some_iff.mp wrote
        rw [if_pos few,ih more,List.length_drop,List.take_add]

theorem bufsWriteAccepted (at_ : Positioned file) {ks : List Nat} {results : List (List (Option Nat))} {last : File}
    (wrote : bufsWrite data ks results file = some last) : last = file.write (accepted data ks results) := by
  induction ks generalizing file results with
  | nil =>
    cases Option.some.inj wrote
    exact (writeNothing at_).symm
  | cons k ks ih =>
    obtain ⟨took,here,rest⟩ := Option.bind_eq_some_iff.mp wrote
    rw [ih (writePositioned at_ _) rest,writeTwice at_,bufWriteTaken here]
    rfl

theorem acceptedAll (ks : List Nat) (results : List (List (Option Nat))) :
    (accepted data ks results).length ≤ (ks.flatMap data).length ∧
    ((accepted data ks results).length = (ks.flatMap data).length → accepted data ks results = ks.flatMap data) := by
  induction ks generalizing results with
  | nil => exact ⟨Nat.le_refl _,fun _ => rfl⟩
  | cons k ks ih =>
    obtain ⟨rest,same⟩ := ih results.tail
    unfold accepted
    rw [List.flatMap_cons,List.length_append,List.length_append,List.length_take]
    refine ⟨by omega,fun size => ?_⟩
    rw [same (by omega),List.take_of_length_le (by omega)]

end file

section published
variable {ctx : Ctx} {id : UrlId}

theorem coversIff {text old written : Bytes} (short : written.length ≤ text.length)
    (all : written.length = text.length → written = text) :
    written ++ old.drop written.length = text ↔ Covers text old written := by
  unfold Covers
  split
  · rename_i size
    rw [all size,List.append_right_eq_self,List.drop_eq_nil_iff]
  · constructor
    · intro whole
      refine ⟨⟨_,whole⟩,?_⟩
      rw [← whole,List.drop_left]
    · rintro ⟨⟨rest,rfl⟩,same⟩
      rw [same,List.drop_left]

variable {old : Option Bytes} {opens : Bool} {results : List (List (Option Nat))} {done : Ctx × Option Bytes}

theorem noneWriteStep (returns : ngxHttpNoneWrite ctx id old opens results = some done) :
    done.1 = bodyWrite ctx id (if opens then .saved else .failed) := by
  unfold ngxHttpNoneWrite at returns
  split at returns
  · rename_i failed
    rw [failed]
    exact congrArg Prod.fst (Option.some.inj returns).symm
  · rename_i fine
    obtain ⟨_,_,rfl⟩ := Option.map_eq_some_iff.mp returns
    rw [Bool.eq_true_of_not_eq_false fine]
    rfl

/-- Of what the writer knows, RES_WRITE says only that the file could be opened. -/
theorem publishedExactly (clear : (ctx.urls id).urlFlags.resWrite = false)
    (returns : ngxHttpNoneWrite ctx id old opens results = some done) : Published ctx id done ↔
      (opens = true → Covers (ctx.captured id) (old.getD []) (accepted ctx.bufs.data (ctx.urls id).dataBufList results)) := by
  have step := noneWriteStep returns
  have flag := (bodyWriteFlags ctx id (if opens then .saved else .failed)).2 clear
  rw [← step] at flag
  cases opens with
  | false =>
    refine iff_of_true ⟨fun set => ?_,fun _ => ?_⟩ fun opened => absurd opened Bool.false_ne_true
    · cases flag.symm.trans set
    · rw [step,if_neg Bool.false_ne_true]
      unfold bodyWrite
      dsimp only
      rw [Ctx.setFlags,modifySelf]
      exact ⟨rfl,rfl⟩
  | true =>
    have at_ : Positioned ⟨old.getD [],false,0⟩ := ⟨rfl,Nat.zero_le _⟩
    have content : done.2 = some (accepted ctx.bufs.data (ctx.urls id).dataBufList results ++
        (old.getD []).drop (accepted ctx.bufs.data (ctx.urls id).dataBufList results).length) := by
      unfold ngxHttpNoneWrite at returns
      rw [if_neg (by decide)] at returns
      obtain ⟨file,wrote,rfl⟩ := Option.map_eq_some_iff.mp returns
      rw [bufsWriteAccepted at_ wrote,writeAt at_]
      dsimp only
      rw [List.take_zero,List.nil_append,Nat.zero_add]
    obtain ⟨short,all⟩ := @acceptedAll ctx.bufs.data (ctx.urls id).dataBufList results
    rw [← @coversIff (ctx.captured id) _ _ short all]
    constructor
    · intro published _
      exact Option.some.inj (content.symm.trans (published.exact_ flag))
    · exact fun whole => ⟨fun _ => content.trans (congrArg some (whole rfl)),fun off => by cases flag.symm.trans off⟩

def savedCtx : Ctx :=
  let ctx := (ngxHttpSnoopingInit 0).modify 0 fun e =>
    { e with dataBufList := [0,1],urlFlags := { resCache := true,cacheBufAlloc := true } }
  { ctx with bufs := { ctx.bufs with data := fun k => if k = 0 then ascii "abc" else ascii "de" } }

theorem publishedWhole : Published savedCtx 0 (bodyWrite savedCtx 0 .saved,some (ascii "abcde")) :=
  (@publishedExactly savedCtx 0 (some (ascii "old")) true [[some 1,some 2],[some 2]] _ (by decide) rfl).mpr
    (by decide)

theorem stalePublished :
    (∃ done,ngxHttpNoneWrite savedCtx 0 (some (ascii "longer")) true [[some 3],[some 2]] = some done ∧
      done.2 = some (ascii "abcder") ∧ ¬Published savedCtx 0 done) ∧
    (∃ done,ngxHttpNoneWrite savedCtx 0 none true [[some 1,none],[some 2]] = some done ∧
      done.2 = some (ascii "ade") ∧ ¬Published savedCtx 0 done) := by
  constructor
  · refine ⟨_,rfl,by decide,fun published => ?_⟩
    exact absurd (published.exact_ (by decide)) (by decide)
  · refine ⟨_,rfl,by decide,fun published => ?_⟩
    exact absurd (published.exact_ (by decide)) (by decide)

end published

end MipsElfExec.Snooping
