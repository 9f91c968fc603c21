import MipsElfExec.Lib.Ring
import MipsElfExec.Lib.Run
import MipsElfExec.Download.Receive

/-! The scheduler of http_download: tasks on four intrusive lists, moved by the handlers of
select(2). A loop over a list remembers the next node before its body, so a position in a loop is a
node; every loop body is one step, with the results of the calls it makes. -/
namespace MipsElfExec.Download
open CString MipsElfExec.Ring Run

def httpDlHostLen : Nat := 128
def httpDlPathLen : Nat := 512
def httpDlUrlLen : Nat := 640
def httpDlLocalLen : Nat := 128
def httpDlTimeoutRetries : Nat := 9

section create

structure Target where
  host : Bytes
  port : Nat
  path : Bytes
  localName : Bytes
  deriving DecidableEq, Repr

def readPort (port : Nat) : Bytes → Option (Nat × Bytes)
  | [] => some (port,[])
  | b :: text =>
    if isdigit b then
      if 65535 < port * 10 + (b.toNat - 48) then none else readPort (port * 10 + (b.toNat - 48)) text
    else some (port,b :: text)

-- The file is named by what stands behind the last slash of the path.
def localName (path : Bytes) : Bytes := (path.reverse.takeWhile (· ≠ 47)).reverse

def pathTarget (host : Bytes) (port : Nat) (text : Bytes) : Option Target :=
  if host = [] ∨ httpDlHostLen ≤ host.length then none
  else
    let path := text.takeWhile fun b => b ≠ 32 && b ≠ 10
    if path = [] ∨ httpDlPathLen ≤ path.length then none
    else if localName path = [] ∨ httpDlLocalLen ≤ (localName path).length then none
    else some ⟨host,if port ≠ 0 then port else 80,path,localName path⟩

def urlTarget (url : Bytes) : Option Target :=
  if httpDlUrlLen ≤ url.length then none
  else
    let p := match strstr url (ascii "http://") with
      | some n => url.drop (n + 7)
      | none => url
    let host := p.takeWhile fun b => b ≠ 47 && b ≠ 58
    match p.drop host.length with
    | [] => none
    | b :: rest =>
      if b = 58 then
        match readPort 0 rest with
        | some (port,47 :: text) => pathTarget host port (47 :: text)
        | _ => none
      else pathTarget host 0 (b :: rest)

def newInfo (target : Target) : Info :=
  { stage := .init,genuineAgent := false,restartFile := false,host := target.host,path := target.path
    port := target.port,sockfd := -1,filefd := 0,buf := List.replicate (httpDlReadbufLen + 4) 0,bufData := 0
    bufTail := 0,recvLen := 0,contentLen := 0,restartLen := 0,totalLen := 0,statusCode := 0,errMsg := [] }

end create

abbrev TaskId := Nat

inductive ListName where
  | initial | requesting | downloading | finished
  deriving DecidableEq, Repr

structure Task where
  info : Info
  localName : Bytes
  timeoutTimes : Nat := 0
  append : Bool
  pos : Nat
  deriving DecidableEq, Repr

inductive Loop where
  | connect | writeTimeout | readTimeout | finish
  | read (readSet writeSet : List Int)
  | write (writeSet : List Int)
  | destroy (k : ListName)
  deriving DecidableEq, Repr

def Loop.list : Loop → ListName
  | .connect => .initial
  | .writeTimeout | .write _ => .requesting
  | .readTimeout | .read _ _ => .downloading
  | .finish => .finished
  | .destroy k => k

def Loop.ends : Loop → Bool
  | .finish | .destroy _ => true
  | _ => false

inductive Pc where
  | top
  | ctrl (readSet writeSet : List Int)
  | loop (l : Loop) (pos : Node ListName TaskId)
  | done
  deriving DecidableEq, Repr

-- `created`, `freed` and `wrongStage` are kept for the record: which allocations there were, how often each was
-- freed, and whether a branch for a wrong stage was taken.
structure Sched where
  links : Links ListName TaskId
  count : ListName → Int
  tasks : TaskId → Task
  fds : List Int
  ctrlSockfd : Int
  files : Bytes → Option Bytes
  pc : Pc
  created : TaskId → Bool
  freed : TaskId → Nat
  wrongStage : Bool

inductive SelectResult where
  | timeout | eintr | error
  | ready (readSet writeSet : List Int)
  deriving DecidableEq, Repr

structure Request where
  text : Bytes
  memory : Bool
  task : TaskId
  stat : Bool
  fd : Int
  deriving DecidableEq, Repr

inductive ConnResult where
  | badHost | noSocket | refused
  | connected (fd : Int)
  deriving DecidableEq, Repr

structure Io where
  conn : ConnResult := .badHost
  nread : ReadResult := .error
  results : List WriteResult := []
  sent : Bool := false
  deriving DecidableEq, Repr

inductive Event where
  | exit
  | select (r : SelectResult)
  | ctrl (datagram : Option Request)
  | body (i : TaskId) (io : Io)
  | leave
  deriving DecidableEq, Repr

def noTask : Task := ⟨newInfo ⟨[],0,[],[]⟩,[],0,false,0⟩

def Sched.start (files : Bytes → Option Bytes) (ctrlSockfd : Int) : Sched :=
  { links := Links.empty,count := fun _ => 0,tasks := fun _ => noTask,fds := [ctrlSockfd],ctrlSockfd := ctrlSockfd
    files := files,pc := .top,created := fun _ => false,freed := fun _ => 0,wrongStage := false }

def Sched.put (s : Sched) (i : TaskId) (task : Task) : Sched := { s with tasks := Function.update s.tasks i task }

@[simp] theorem putSelf (s : Sched) (i : TaskId) (task : Task) : (s.put i task).tasks i = task := by
  simp [Sched.put]

theorem putOther (s : Sched) {i j : TaskId} (other : j ≠ i) (task : Task) : (s.put i task).tasks j = s.tasks j := by
  simp [Sched.put,other]

def Task.setStage (task : Task) (stage : Stage) : Task := { task with info := { task.info with stage := stage } }

def Task.setSockfd (task : Task) (fd : Int) : Task := { task with info := { task.info with sockfd := fd } }

def Task.fail (task : Task) (msg : String) : Task := { task with info := { task.info with errMsg := ascii msg } }

def Sched.wrong (s : Sched) : Sched := { s with wrongStage := true }

def httpDlAddInfoToList (s : Sched) (i : TaskId) (k : ListName) : Sched :=
  { s with links := listAddTail s.links i k,count := Function.update s.count k (s.count k + 1) }

def httpDlDelInfoFromList (s : Sched) (i : TaskId) (k : ListName) : Sched :=
  { s with links := listDelInit s.links i,count := Function.update s.count k (s.count k - 1) }

def httpDlAddInfoToInitialList (s : Sched) (i : TaskId) : Sched :=
  if (s.tasks i).info.stage ≠ .init then s.wrong else httpDlAddInfoToList s i .initial

def httpDlDelInfoFromInitialList (s : Sched) (i : TaskId) : Sched :=
  if (s.tasks i).info.stage ≠ .init then s.wrong else httpDlDelInfoFromList s i .initial

def Sched.finish (s : Sched) (i : TaskId) (task : Task) : Sched :=
  httpDlAddInfoToList (s.put i (task.setStage .finish)) i .finished

def Sched.waste (s : Sched) (i : TaskId) : Sched :=
  { s with created := Function.update s.created i true,freed := Function.update s.freed i (s.freed i + 1) }

def Sched.opened (s : Sched) (r : Request) (target : Target) (info : Info) (file : File) : Sched :=
  { s with
      created := Function.update s.created r.task true
      tasks := Function.update s.tasks r.task ⟨info,target.localName,0,file.append,file.pos⟩
      fds := s.fds ++ [r.fd]
      files := Function.update s.files target.localName (some ((s.files target.localName).getD [])) }

def Sched.found (s : Sched) (r : Request) (target : Target) : Option Bytes :=
  if r.stat then s.files target.localName else none

def Sched.createInfo (s : Sched) (r : Request) (target : Target) : Sched × Bool :=
  match httpDlInitFilefd (newInfo target) (s.found r target) r.fd with
  | (info,file,.ok) => (s.opened r target info file,true)
  | _ => (s.waste r.task,false)

def httpDlCreateInfo (s : Sched) (r : Request) : Sched × Bool :=
  match urlTarget (cstr (r.text.take (httpDlUrlLen - 1))) with
  | none => (s,false)
  | some target => if r.memory then s.createInfo r target else (s,false)

-- None stands for a datagram that could not be received.
def httpDlHandleCtrlEvent (s : Sched) : Option Request → Sched
  | none => s
  | some r => if (httpDlCreateInfo s r).2 then httpDlAddInfoToInitialList (httpDlCreateInfo s r).1 r.task
    else (httpDlCreateInfo s r).1

def Sched.connect (s : Sched) (i : TaskId) (io : Io) : Sched :=
  let s := httpDlDelInfoFromInitialList s i
  match io.conn with
  | .connected fd =>
    httpDlAddInfoToList { s.put i (((s.tasks i).setSockfd fd).setStage .sendRequest) with fds := s.fds ++ [fd] } i .requesting
  | _ => s.finish i ((s.tasks i).fail "TCP connect failed.")

def Sched.timeout (s : Sched) (i : TaskId) (k : ListName) (msg : String) : Sched :=
  let task := { s.tasks i with timeoutTimes := (s.tasks i).timeoutTimes + 1 }
  if task.timeoutTimes < httpDlTimeoutRetries then s.put i task
  else (httpDlDelInfoFromList s i k).finish i (task.fail msg)

-- The socket is shut down; the call that would close it is commented out.
def httpDlFinishInfo (s : Sched) (i : TaskId) : Sched :=
  if (s.tasks i).info.stage ≠ .finish then s.wrong
  else { s with
    fds := if (s.tasks i).info.filefd < 0 then s.fds else s.fds.erase (s.tasks i).info.filefd
    freed := Function.update s.freed i (s.freed i + 1) }

def Sched.recv (s : Sched) (i : TaskId) (io : Io) : Info × File × Ret :=
  let task := s.tasks i
  httpDlRecvResp task.info ⟨(s.files task.localName).getD [],task.append,task.pos⟩ io.nread io.results

def Sched.received (s : Sched) (i : TaskId) (io : Io) : Sched :=
  let done := s.recv i io
  let task := s.tasks i
  { s.put i { task with info := done.1,append := done.2.1.append,pos := done.2.1.pos } with
    files := Function.update s.files task.localName (some done.2.1.content)
    wrongStage := s.wrongStage || done.2.2 == .internal }

def Stage.reading : Stage → Bool
  | .parseStatusLine | .parseHeader | .recvContent => true
  | _ => false

def httpDlHandleReadEvent (s : Sched) (i : TaskId) (io : Io) : Sched :=
  if (s.tasks i).info.stage.reading then
    let ret := (s.recv i io).2.2
    let s := s.received i io
    if ret = .again then s
    else
      (httpDlDelInfoFromList s i .downloading).finish i
        (if ret = .ok then s.tasks i else (s.tasks i).fail "Receive HTTP response failed.")
  else s.wrong

def httpDlHandleWriteEvent (s : Sched) (i : TaskId) (io : Io) : Sched :=
  if (s.tasks i).info.stage ≠ .sendRequest then s.wrong
  else
    let sent := (httpDlSendReq (s.tasks i).info).isSome && io.sent
    let s := httpDlDelInfoFromList s i .requesting
    if sent then httpDlAddInfoToList (s.put i ((s.tasks i).setStage .parseStatusLine)) i .downloading
    else s.finish i ((s.tasks i).fail "Send HTTP request failed.")

def Sched.wake (s : Sched) (i : TaskId) : Sched := s.put i { s.tasks i with timeoutTimes := 0 }

def Sched.destroy (s : Sched) (i : TaskId) (k : ListName) : Sched :=
  let s := httpDlFinishInfo { s.put i ((s.tasks i).setStage .finish) with links := listDelInit s.links i } i
  { s with count := Function.update s.count k (s.count k - 1) }

def Sched.body (s : Sched) (i : TaskId) (io : Io) : Loop → Sched
  | .connect => s.connect i io
  | .writeTimeout => s.timeout i .requesting "Write timeout 27 secs."
  | .readTimeout => s.timeout i .downloading "Read timeout 27 secs."
  | .finish => httpDlFinishInfo (httpDlDelInfoFromList s i .finished) i
  | .read readSet _ => if (s.tasks i).info.sockfd ∈ readSet then httpDlHandleReadEvent (s.wake i) i io else s
  | .write writeSet => if (s.tasks i).info.sockfd ∈ writeSet then httpDlHandleWriteEvent (s.wake i) i io else s
  | .destroy k => s.destroy i k

def Sched.enter (s : Sched) (l : Loop) : Sched := { s with pc := .loop l (s.links.next (.head l.list)) }

def Sched.leave (s : Sched) : Loop → Sched
  | .connect => s.enter .writeTimeout
  | .writeTimeout => s.enter .readTimeout
  | .readTimeout => s.enter .finish
  | .finish | .write _ => { s with pc := .top }
  | .read _ writeSet => s.enter (.write writeSet)
  | .destroy .initial => s.enter (.destroy .requesting)
  | .destroy .requesting => s.enter (.destroy .downloading)
  | .destroy .downloading => s.enter (.destroy .finished)
  | .destroy .finished => { s with pc := .done }

def Sched.quit (s : Sched) : Sched := { s with fds := s.fds.erase s.ctrlSockfd }.enter (.destroy .initial)

-- A connected socket is not negative; a read returns no more than it was offered.
def Sched.possible (s : Sched) (i : TaskId) (io : Io) : Loop → Bool
  | .connect => match io.conn with
    | .connected fd => 0 ≤ fd
    | _ => true
  | .read _ _ => match io.nread with
    | .data bytes => bytes.length ≤ (s.tasks i).info.freeSpace
    | .error => true
  | _ => true

def Sched.step (s : Sched) : Event → Option Sched
  | .exit => match s.pc with
    | .top => some s.quit
    | _ => none
  | .select r => match s.pc with
    | .top => match r with
      | .timeout => some (s.enter .connect)
      | .eintr => some s
      | .error => some s.quit
      | .ready readSet writeSet => some { s with pc := .ctrl readSet writeSet }
    | _ => none
  | .ctrl datagram => match s.pc with
    | .ctrl readSet writeSet =>
      if s.ctrlSockfd ∈ readSet then
        if ∀ r ∈ datagram,s.created r.task = false then some ((httpDlHandleCtrlEvent s datagram).enter (.read readSet writeSet)) else none
      else some (s.enter (.read readSet writeSet))
    | _ => none
  | .body i io => match s.pc with
    | .loop l (.item j) =>
      if i = j ∧ s.possible i io l then some { s.body i io l with pc := .loop l (s.links.next (.item i)) } else none
    | _ => none
  | .leave => match s.pc with
    | .loop l (.head k) => if k = l.list then some (s.leave l) else none
    | _ => none

inductive Stepped (s : Sched) : Event → Sched → Prop
  | exit (top : s.pc = .top) : Stepped s .exit s.quit
  | timeout (top : s.pc = .top) : Stepped s (.select .timeout) (s.enter .connect)
  | eintr (top : s.pc = .top) : Stepped s (.select .eintr) s
  | error (top : s.pc = .top) : Stepped s (.select .error) s.quit
  | ready {readSet writeSet : List Int} (top : s.pc = .top) :
      Stepped s (.select (.ready readSet writeSet)) { s with pc := .ctrl readSet writeSet }
  | quiet {readSet writeSet : List Int} {datagram : Option Request} (pc : s.pc = .ctrl readSet writeSet)
      (unset : s.ctrlSockfd ∉ readSet) : Stepped s (.ctrl datagram) (s.enter (.read readSet writeSet))
  | ctrl {readSet writeSet : List Int} {datagram : Option Request} (pc : s.pc = .ctrl readSet writeSet)
      (set : s.ctrlSockfd ∈ readSet) (fresh : ∀ r ∈ datagram,s.created r.task = false) :
      Stepped s (.ctrl datagram) ((httpDlHandleCtrlEvent s datagram).enter (.read readSet writeSet))
  | body {l : Loop} {i : TaskId} {io : Io} (pc : s.pc = .loop l (.item i)) (possible : s.possible i io l = true) :
      Stepped s (.body i io) { s.body i io l with pc := .loop l (s.links.next (.item i)) }
  | leave {l : Loop} (pc : s.pc = .loop l (.head l.list)) : Stepped s .leave (s.leave l)

theorem stepIff {s t : Sched} {e : Event} : s.step e = some t ↔ Stepped s e t := by
  constructor
  · intro next
    cases e with
    | exit =>
      simp only [Sched.step] at next
      split at next <;> cases next
      exact .exit (by assumption)
    | select r =>
      simp only [Sched.step] at next
      split at next
      · rename_i top
        cases r with
        | timeout => cases next; exact .timeout top
        | eintr => cases next; exact .eintr top
        | error => cases next; exact .error top
        | ready readSet writeSet => cases next; exact .ready top
      · cases next
    | ctrl datagram =>
      simp only [Sched.step] at next
      split at next
      · rename_i pc
        split at next
        · rename_i set
          split at next
          · rename_i fresh
            cases next
            exact .ctrl pc set fresh
          · cases next
        · rename_i unset
          cases next
          exact .quiet pc unset
      · cases next
    | body i io =>
      simp only [Sched.step] at next
      split at next
      · rename_i l j pc
        split at next
        · rename_i same
          cases same.1
          cases next
          exact .body pc same.2
        · cases next
      · cases next
    | leave =>
      simp only [Sched.step] at next
      split at next
      · rename_i l k pc
        split at next
        · rename_i same
          cases next
          rw [same] at pc
          exact .leave pc
        · cases next
      · cases next
  · intro stepped
    cases stepped with
    | exit top => simp only [Sched.step,top]
    | timeout top => simp only [Sched.step,top]
    | eintr top => simp only [Sched.step,top]
    | error top => simp only [Sched.step,top]
    | ready top => simp only [Sched.step,top]
    | quiet pc unset => simp only [Sched.step,pc,if_neg unset]
    | ctrl pc set fresh => simp only [Sched.step,pc,if_pos set,if_pos fresh]
    | body pc possible => simp only [Sched.step,pc,possible,and_self,if_true]
    | leave pc => simp only [Sched.step,pc,if_pos]

structure LeaveFrame (s t : Sched) : Prop where
  links : t.links = s.links
  fds : t.fds = s.fds
  tasks : t.tasks = s.tasks
  created : t.created = s.created
  files : t.files = s.files
  ctrlSockfd : t.ctrlSockfd = s.ctrlSockfd

theorem leaveFrame (s : Sched) (l : Loop) : LeaveFrame s (s.leave l) := by
  cases l with
  | destroy k => cases k <;> exact ⟨rfl,rfl,rfl,rfl,rfl,rfl⟩
  | _ => exact ⟨rfl,rfl,rfl,rfl,rfl,rfl⟩

end MipsElfExec.Download
