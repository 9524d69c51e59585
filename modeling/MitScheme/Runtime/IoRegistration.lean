import MitScheme.Runtime.ThreadKernel

/-! # I/O registrations

The registrations of threads for I/O events: a list of dentries, one for each
descriptor and mode, each with a list of tentries, and the select registry beside
them. An operation that signals an error keeps what it has done so far. -/

namespace MitScheme.Runtime.IoRegistration
open ThreadKernel (ThreadId)

/-! ## The select registry -/

abbrev Descriptor := Nat

/-- The mode symbols. `guarantee-select-mode` has `read-write` where the others have
`read/write`. -/
inductive Mode
  | read
  | write
  | readHyphenWrite
  | readSlashWrite
  deriving DecidableEq

def encodeSelectRegistryMode : Mode → Option Nat
  | .read => some 1
  | .write => some 2
  | .readSlashWrite => some 3
  | .readHyphenWrite => none

/-- `POLLIN` and `POLLOUT`. -/
structure PollEvents where
  input : Bool
  output : Bool
  deriving DecidableEq

def decodeMode (mode : Nat) : PollEvents := ⟨mode.testBit 0, mode.testBit 1⟩

structure PollFd where
  fd : Descriptor
  events : PollEvents

abbrev Registry := List PollFd

def osAddToSelectRegistry (fd : Descriptor) (mode : Nat) : Registry → Registry
  | [] => [⟨fd, decodeMode mode⟩]
  | e :: r =>
    if e.fd = fd then
      { e with events := ⟨e.events.input || (decodeMode mode).input,
                          e.events.output || (decodeMode mode).output⟩ } :: r
    else e :: osAddToSelectRegistry fd mode r

def osRemoveFromSelectRegistry (fd : Descriptor) (mode : Nat) : Registry → Registry
  | [] => []
  | e :: r =>
    if e.fd = fd then
      let events : PollEvents :=
        ⟨e.events.input && !(decodeMode mode).input, e.events.output && !(decodeMode mode).output⟩
      if events = ⟨false, false⟩ then r else { e with events } :: r
    else e :: osRemoveFromSelectRegistry fd mode r

/-! ## Entries -/

abbrev DentryId := Nat
abbrev TentryId := Nat
abbrev EventId := Nat

structure Dentry where
  descriptor : Descriptor
  mode : Mode
  firstTentry : Option TentryId
  lastTentry : Option TentryId
  prev : Option DentryId
  next : Option DentryId

structure Tentry where
  dentry : Option DentryId
  thread : Option ThreadId
  event : Option EventId
  prev : Option TentryId
  next : Option TentryId

/-- What select found ready, as `simplify-select-registry-mode` names it. -/
inductive Readiness
  | read
  | write
  | readWrite
  | error
  | hangup

/-- A call of `%signal-thread-event` for a tentry: its event with the mode it is
called with, or `#f`. -/
structure Signal where
  tentry : TentryId
  thread : ThreadId
  event : Option (EventId × Option Readiness)

inductive Fault
  /-- `error:wrong-type-argument`, also from an accessor given `#f`. -/
  | wrongType
  /-- `error:bad-range-argument` of `encode-select-registry-mode`. -/
  | badRange
  /-- A loop over the entries goes round. -/
  | diverges

/-- The variables of the module. `signals` is a history. -/
structure Io where
  dentries : DentryId → Dentry
  dentryCount : Nat
  tentries : TentryId → Tentry
  tentryCount : Nat
  registrations : Option DentryId
  registry : Registry
  signals : List Signal

/-- An operation returns, or signals an error in the state it has reached. -/
inductive Outcome
  | done (io : Io)
  | fault (fault : Fault) (io : Io)

def Outcome.io : Outcome → Io
  | .done io => io
  | .fault _ io => io

def Outcome.andThen : Outcome → (Io → Outcome) → Outcome
  | .done io, f => f io
  | .fault e io, _ => .fault e io

namespace Io

def setDentry (s : Io) (d : DentryId) (x : Dentry) : Io :=
  { s with dentries := Function.update s.dentries d x }

def setTentry (s : Io) (t : TentryId) (x : Tentry) : Io :=
  { s with tentries := Function.update s.tentries t x }

def splice (s : Io) (d : DentryId) : Io :=
  let prev := (s.dentries d).prev
  let next := (s.dentries d).next
  let s :=
    match prev with
    | some p => s.setDentry p { s.dentries p with next }
    | none => { s with registrations := next }
  match next with
  | some n => s.setDentry n { s.dentries n with prev }
  | none => s

/-- `remove-from-select-registry!` and the splice, as three procedures do them. -/
def removeDentry (s : Io) (d : DentryId) : Outcome :=
  match encodeSelectRegistryMode (s.dentries d).mode with
  | none => .fault .badRange s
  | some mode =>
    .done ({ s with
      registry := osRemoveFromSelectRegistry (s.dentries d).descriptor mode s.registry }.splice d)

def spliceTentry (s : Io) (d : DentryId) (prev next : Option TentryId) : Io :=
  let s :=
    match prev with
    | some p => s.setTentry p { s.tentries p with next }
    | none => s.setDentry d { s.dentries d with firstTentry := next }
  match next with
  | some n => s.setTentry n { s.tentries n with prev }
  | none => s.setDentry d { s.dentries d with lastTentry := prev }

def deleteTentry (s : Io) (t : TentryId) : Outcome :=
  let tentry := s.tentries t
  match tentry.dentry with
  | none => .fault .wrongType s
  | some d =>
    let s := (s.setTentry t ⟨none, none, none, none, none⟩).spliceTentry d tentry.prev tentry.next
    if tentry.prev = none ∧ tentry.next = none then s.removeDentry d else .done s

def findDentry (s : Io) (predicate : Dentry → Bool) :
    Nat → Option DentryId → Except Fault (Option DentryId)
  | _, none => .ok none
  | 0, some _ => .error .diverges
  | fuel + 1, some d =>
    if predicate (s.dentries d) then .ok (some d)
    else s.findDentry predicate fuel (s.dentries d).next

def search (s : Io) (predicate : Dentry → Bool) : Except Fault (Option DentryId) :=
  s.findDentry predicate s.dentryCount s.registrations

def guaranteeSelectMode (mode : Mode) : Bool :=
  decide (mode ∈ [Mode.read, Mode.write, Mode.readHyphenWrite])

def isFor (descriptor : Descriptor) (mode : Mode) (x : Dentry) : Bool :=
  decide (descriptor = x.descriptor) && decide (mode = x.mode)

def addDentry (s : Io) (descriptor : Descriptor) (mode : Mode) (t : TentryId) : Outcome :=
  let d := s.dentryCount
  let s' := { s with
    dentries := Function.update s.dentries d ⟨descriptor, mode, some t, some t, none, s.registrations⟩
    dentryCount := d + 1 }
  let s' := s'.setTentry t { s'.tentries t with dentry := some d, prev := none, next := none }
  let s' :=
    match s.registrations with
    | some first => s'.setDentry first { s'.dentries first with prev := some d }
    | none => s'
  let s' := { s' with registrations := some d }
  match encodeSelectRegistryMode mode with
  | none => .fault .badRange s'
  | some n => .done { s' with registry := osAddToSelectRegistry descriptor n s'.registry }

def addTentry (s : Io) (d : DentryId) (t : TentryId) : Outcome :=
  let prev := (s.dentries d).lastTentry
  let s := s.setTentry t { s.tentries t with dentry := some d, prev, next := none }
  let s := s.setDentry d { s.dentries d with lastTentry := some t }
  match prev with
  | some p => .done (s.setTentry p { s.tentries p with next := some t })
  | none => .fault .wrongType s

def registerIoThreadEvent (s : Io) (descriptor : Descriptor) (mode : Mode) (thread : ThreadId)
    (event : Option EventId) : Outcome :=
  if guaranteeSelectMode mode then
    let t := s.tentryCount
    let s := { s with
      tentries := Function.update s.tentries t ⟨none, some thread, event, none, none⟩
      tentryCount := t + 1 }
    match s.search (isFor descriptor mode) with
    | .error e => .fault e s
    | .ok none => s.addDentry descriptor mode t
    | .ok (some d) => s.addTentry d t
  else .fault .wrongType s

/-- `deregister-io-thread-event` of a tentry. -/
def deregisterIoThreadEvent (s : Io) (t : TentryId) : Outcome :=
  if t < s.tentryCount then
    if (s.tentries t).dentry = none then .done s else s.deleteTentry t
  else .fault .wrongType s

def deregisterIoDescriptorEvents (s : Io) (descriptor : Descriptor) (mode : Mode) : Outcome :=
  if guaranteeSelectMode mode then
    match s.search (isFor descriptor mode) with
    | .error e => .fault e s
    | .ok none => .done s
    | .ok (some d) => s.removeDentry d
  else .fault .wrongType s

/-- `%signal-thread-event` for a tentry. -/
def signalTentry (s : Io) (t : TentryId) (thread : ThreadId) (event : Option EventId)
    (mode : Option Readiness) : Io :=
  { s with signals := s.signals ++ [⟨t, thread, event.map fun e => (e, mode)⟩] }

/-- The tentries of `%deregister-io-descriptor`. -/
def signalLoop (s : Io) : Nat → Option TentryId → Outcome
  | _, none => .done s
  | 0, some _ => .fault .diverges s
  | fuel + 1, some t =>
    match (s.tentries t).thread with
    | none => .fault .wrongType s
    | some thread =>
      (s.signalTentry t thread (s.tentries t).event none).signalLoop fuel (s.tentries t).next

/-- The dentries of `%deregister-io-descriptor`. -/
def descriptorLoop (s : Io) (descriptor : Descriptor) : Nat → Option DentryId → Outcome
  | _, none => .done s
  | 0, some _ => .fault .diverges s
  | fuel + 1, some d =>
    if descriptor = (s.dentries d).descriptor then
      ((s.signalLoop s.tentryCount (s.dentries d).firstTentry).andThen (·.removeDentry d)).andThen
        fun s => s.descriptorLoop descriptor fuel (s.dentries d).next
    else s.descriptorLoop descriptor fuel (s.dentries d).next

def deregisterIoDescriptor (s : Io) (descriptor : Descriptor) : Outcome :=
  s.descriptorLoop descriptor s.dentryCount s.registrations

/-- The tentries of a thread in the list of a dentry, the last first. -/
def threadTentries (s : Io) (thread : ThreadId) :
    Nat → Option TentryId → List TentryId → Except Fault (List TentryId)
  | _, none, tentries => .ok tentries
  | 0, some _, _ => .error .diverges
  | fuel + 1, some t, tentries =>
    s.threadTentries thread fuel (s.tentries t).next
      (if (s.tentries t).thread = some thread then t :: tentries else tentries)

def threadDentries (s : Io) (thread : ThreadId) :
    Nat → Option DentryId → List TentryId → Except Fault (List TentryId)
  | _, none, tentries => .ok tentries
  | 0, some _, _ => .error .diverges
  | fuel + 1, some d, tentries =>
    match s.threadTentries thread s.tentryCount (s.dentries d).firstTentry tentries with
    | .error e => .error e
    | .ok tentries => s.threadDentries thread fuel (s.dentries d).next tentries

def deleteTentries (s : Io) : List TentryId → Outcome
  | [] => .done s
  | t :: ts => (s.deleteTentry t).andThen fun s => s.deleteTentries ts

/-- `%deregister-io-thread-events`, called when a thread exits. -/
def deregisterIoThreadEvents (s : Io) (thread : ThreadId) : Outcome :=
  match s.threadDentries thread s.dentryCount s.registrations [] with
  | .error e => .fault e s
  | .ok tentries => s.deleteTentries tentries

/-- The modes for which `signal-io-thread-events` takes a result. -/
def wants (ready : Readiness) (mode : Mode) : Bool :=
  match ready with
  | .read => decide (mode ∈ [Mode.read, Mode.readSlashWrite])
  | .write => decide (mode ∈ [Mode.write, Mode.readSlashWrite])
  | .readWrite => true
  | .error => true
  | .hangup => true

def signalAll (s : Io) (events : List Signal) : Io := { s with signals := s.signals ++ events }

/-- `signal-io-thread-events`. Each result wakes the first tentry of one dentry. -/
def resultLoop (s : Io) : List (Descriptor × Readiness) → List Signal → Outcome
  | [], events => .done (s.signalAll events)
  | (descriptor, ready) :: results, events =>
    match s.search fun x => decide (descriptor = x.descriptor) && wants ready x.mode with
    | .error e => .fault e s
    | .ok none => s.resultLoop results events
    | .ok (some d) =>
      match (s.dentries d).firstTentry with
      | none => .fault .wrongType s
      | some t =>
        match (s.tentries t).thread with
        | none => .fault .wrongType s
        | some thread =>
          (s.deleteTentry t).andThen fun s' =>
            s'.resultLoop results
              (⟨t, thread, (s.tentries t).event.map fun e => (e, some ready)⟩ :: events)

def signalIoThreadEvents (s : Io) (results : List (Descriptor × Readiness)) : Outcome :=
  s.resultLoop results []

end Io

/-! ## Histories -/

structure Registration where
  id : TentryId
  descriptor : Descriptor
  mode : Mode
  thread : ThreadId
  event : Option EventId

/-- The state with its history: the registrations made and not delivered,
deregistered or dropped, and those dropped with their descriptor. -/
structure World where
  io : Io
  active : List Registration
  dropped : List TentryId

inductive Action
  | register (descriptor : Descriptor) (mode : Mode) (thread : ThreadId) (event : Option EventId)
  | deregister (t : TentryId)
  | deregisterDescriptorEvents (descriptor : Descriptor) (mode : Mode)
  | deregisterDescriptor (descriptor : Descriptor)
  | exit (thread : ThreadId)
  | deliver (results : List (Descriptor × Readiness))

namespace World

def initial : World where
  io :=
    { dentries := fun _ => ⟨0, .read, none, none, none, none⟩
      dentryCount := 0
      tentries := fun _ => ⟨none, none, none, none, none⟩
      tentryCount := 0
      registrations := none
      registry := []
      signals := [] }
  active := []
  dropped := []

def call (s : World) : Action → Outcome
  | .register descriptor mode thread event =>
    s.io.registerIoThreadEvent descriptor mode thread event
  | .deregister t => s.io.deregisterIoThreadEvent t
  | .deregisterDescriptorEvents descriptor mode =>
    s.io.deregisterIoDescriptorEvents descriptor mode
  | .deregisterDescriptor descriptor => s.io.deregisterIoDescriptor descriptor
  | .exit thread => s.io.deregisterIoThreadEvents thread
  | .deliver results => s.io.signalIoThreadEvents results

def drop (s : World) (io : Io) (p : Registration → Bool) : World where
  io := io
  active := s.active.filter (!p ·)
  dropped := s.dropped ++ (s.active.filter p).map Registration.id

/-- What an action means for the registrations. One is delivered when its thread
is signalled. -/
def step (s : World) (action : Action) : Option World :=
  let io := (s.call action).io
  some <| match action with
  | .register descriptor mode thread event =>
    { s with
      io
      active :=
        if Io.guaranteeSelectMode mode then
          s.active ++ [⟨s.io.tentryCount, descriptor, mode, thread, event⟩]
        else s.active }
  | .deregister t => { s with io, active := s.active.filter (·.id ≠ t) }
  | .deregisterDescriptorEvents descriptor mode =>
    s.drop io fun r => decide (r.descriptor = descriptor ∧ r.mode = mode)
  | .deregisterDescriptor descriptor => s.drop io fun r => decide (r.descriptor = descriptor)
  | .exit thread => { s with io, active := s.active.filter (·.thread ≠ thread) }
  | .deliver _ =>
    let delivered := (io.signals.drop s.io.signals.length).map Signal.tentry
    { s with io, active := s.active.filter (·.id ∉ delivered) }

end World

end MitScheme.Runtime.IoRegistration
