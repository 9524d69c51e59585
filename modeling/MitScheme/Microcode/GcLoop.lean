import Mathlib.Logic.Function.Basic

/-! # The garbage collector

The copying collector of `gcloop.c`, without compiled code and without the debugging tools.
Addresses count words. Tospace is a buffer of its own, indexed from `tospace_start`; all other
memory is one function of the address. A `while` loop that runs longer than its bound stops
with `outOfFuel`, and `std_gc_death` with `death`. -/

namespace MitScheme.Microcode.GcLoop

/-! ## Objects -/

inductive TypeCode
  | false | list | character | scodeQuote | compiledReturn | uninternedSymbol | bigFlonum
  | unused07 | constant | extendedProcedure | vector | returnCode | unused0C | manifestClosure
  | bigFixnum | procedure | entity | delay | environment | delayed | extendedLambda | comment
  | nonMarkedVector | lambda | primitive | sequence | fixnum | unicodeString | controlPoint
  | internedSymbol | characterString | access | hunk3A | definition | brokenHeart | assignment
  | hunk3B | taggedObject | combination | manifestNmVector | compiledEntry | lexpr | unused2A
  | ephemeron | variable | theEnvironment | syntaxError | vector1B | unused30 | vector16B
  | referenceTrap | bytevector | conditional | disjunction | cell | weakCons | quad
  | linkageSection | ratnum | stackEnvironment | complex | compiledCodeBlock | record | unused3F
  deriving DecidableEq

inductive GcType
  | nonPointer | cell | pair | triple | quadruple | vector | compiledEntry | compiledReturn
  | special | undefined

def gcTypeMap : TypeCode → GcType
  | .false | .character | .constant | .returnCode | .primitive | .fixnum | .theEnvironment
  | .stackEnvironment => .nonPointer
  | .cell => .cell
  | .list | .scodeQuote | .uninternedSymbol | .extendedProcedure | .procedure | .entity | .delay
  | .delayed | .comment | .lambda | .sequence | .internedSymbol | .access | .definition
  | .assignment | .taggedObject | .lexpr | .syntaxError | .disjunction | .weakCons | .ratnum
  | .complex => .pair
  | .extendedLambda | .hunk3A | .hunk3B | .variable | .conditional => .triple
  | .quad => .quadruple
  | .bigFlonum | .vector | .bigFixnum | .environment | .nonMarkedVector | .unicodeString
  | .controlPoint | .characterString | .combination | .ephemeron | .vector1B | .vector16B
  | .bytevector | .compiledCodeBlock | .record => .vector
  | .compiledEntry => .compiledEntry
  | .compiledReturn => .compiledReturn
  | .manifestClosure | .brokenHeart | .manifestNmVector | .referenceTrap | .linkageSection =>
    .special
  | .unused07 | .unused0C | .unused2A | .unused30 | .unused3F => .undefined

structure Object where
  type : TypeCode
  datum : Nat
  deriving DecidableEq

def sharpF : Object := ⟨.false, 0⟩

def trapMaxImmediate : Nat := 9

def makeBrokenHeart (address : Nat) : Object := ⟨.brokenHeart, address⟩

/-- `BROKEN_HEART_P`. -/
def Object.isBrokenHeart (object : Object) : Bool := object.type = .brokenHeart

/-- `OBJECT_NEW_ADDRESS`. -/
def Object.newAddress (object : Object) (address : Nat) : Object := ⟨object.type, address⟩

inductive GcPtrType
  | normal | compiledEntry | compiledReturn | not

def gcPtrType (object : Object) : GcPtrType :=
  match gcTypeMap object.type with
  | .special =>
    if object.type = .referenceTrap ∧ trapMaxImmediate ≤ object.datum then .normal else .not
  | .cell | .pair | .triple | .quadruple | .vector => .normal
  | .compiledEntry => .compiledEntry
  | .compiledReturn => .compiledReturn
  | .nonPointer | .undefined => .not

/-! ## Ephemerons -/

def ephemeronKey : Nat := 1
def ephemeronList : Nat := 3
def ephemeronNext : Nat := 4
def ephemeronSize : Nat := 5
def markedEphemeronManifest : Object := ⟨.false, ephemeronSize - 1⟩

def unmarkedEphemeronManifest : Object := ⟨.manifestNmVector, ephemeronSize - 1⟩

/-! ## State -/

/-- What does not change during a collection. `floatingAlignment` is the mask, in bytes, plus
one. -/
structure Config where
  fromspaceStart : Nat
  fromspaceEnd : Nat
  newspaceStart : Nat
  wordSize : Nat
  floatingAlignment : Nat
  ephemeronArrayLength : Nat
  floatingAlignment_pos : 0 < floatingAlignment

structure State where
  memory : Nat → Object
  tospace : Nat → Object
  tospaceNext : Nat
  newspaceNext : Nat
  weakChain : Option Nat
  ephemeronList : Object
  ephemeronQueue : Object
  scanningEphemerons : Bool
  ephemeronArray : Nat → Object
  ephemeronCount : Nat

inductive Stop
  | death
  | outOfFuel

variable (c : Config)

/-- `ADDRESS_IN_FROMSPACE_P`. -/
def Config.inFromspace (address : Nat) : Bool :=
  c.fromspaceStart ≤ address ∧ address < c.fromspaceEnd

/-- `FLOATING_ALIGNED_P`. -/
def Config.floatingAligned (address : Nat) : Bool :=
  c.wordSize * (address + 1) % c.floatingAlignment = 0

def readTospace (address : Nat) (s : State) : Object := s.tospace (address - c.newspaceStart)

def writeTospace (address : Nat) (object : Object) (s : State) : State :=
  { s with tospace := Function.update s.tospace (address - c.newspaceStart) object }

/-- `open_tospace` at the start of newspace. -/
def openTospace (s : State) : State :=
  { s with tospaceNext := 0, newspaceNext := c.newspaceStart }

def addToTospace (object : Object) (s : State) : State :=
  { s with
    tospace := Function.update s.tospace s.tospaceNext object
    tospaceNext := s.tospaceNext + 1
    newspaceNext := s.newspaceNext + 1 }

/-! ## Weak references -/

def weakReferentAddress (object : Object) : Except Stop (Option Nat) :=
  match gcPtrType object with
  | .normal => .ok (some object.datum)
  | .compiledEntry | .compiledReturn => .error .death
  | .not => .ok none

def weakReferentForward (object collected : Object) (s : State) : Except Stop Object :=
  match gcPtrType object with
  | .normal =>
    if (s.memory object.datum).isBrokenHeart then
      .ok (object.newAddress (s.memory object.datum).datum)
    else .ok collected
  | .compiledEntry | .compiledReturn | .not => .error .death

/-- The place of a pointer to an ephemeron: a slot of the ephemeron array, or the next field of
an ephemeron. -/
inductive EntryLoc
  | slot (index : Nat)
  | next (ephemeron : Nat)

def getEntry : EntryLoc → State → Object
  | .slot index, s => s.ephemeronArray index
  | .next ephemeron, s => readTospace c (ephemeron + ephemeronNext) s

def setEntry (entry : Object) : EntryLoc → State → State
  | .slot index, s => { s with ephemeronArray := Function.update s.ephemeronArray index entry }
  | .next ephemeron, s => writeTospace c (ephemeron + ephemeronNext) entry s

def ephemeronIndex (address : Nat) : Nat := c.wordSize * address % c.ephemeronArrayLength

/-- The `while` loop of `queue_ephemerons_for_key`. -/
def queueEntries (address : Nat) : Nat → EntryLoc → State → Except Stop State
  | 0, _, _ => .error .outOfFuel
  | fuel + 1, loc, s =>
    let entry := getEntry c loc s
    if entry.type = .ephemeron then do
      let nextLoc := EntryLoc.next entry.datum
      let keyAddress ← weakReferentAddress (readTospace c (entry.datum + ephemeronKey) s)
      if keyAddress = some address then
        let s := setEntry c (getEntry c nextLoc s) loc s
        let s := setEntry c s.ephemeronQueue nextLoc s
        queueEntries address fuel nextLoc { s with ephemeronQueue := entry }
      else queueEntries address fuel nextLoc s
    else .ok s

def queueEphemeronsForKey (fuel address : Nat) (s : State) : Except Stop State :=
  queueEntries c address fuel (.slot (ephemeronIndex c address)) s

/-! ## Transport -/

def gcPrecheckFrom (fuel address : Nat) (s : State) : Except Stop (Option Nat × State) :=
  if !c.inFromspace address then .ok (some address, s)
  else if (s.memory address).isBrokenHeart then .ok (some (s.memory address).datum, s)
  else if s.scanningEphemerons then do
    let s ← queueEphemeronsForKey c fuel address s
    .ok (none, s)
  else .ok (none, s)

/-- The padding of `gc_transport_words`. -/
def alignTospace : Nat → State → State
  | 0, s => s
  | n + 1, s =>
    if c.floatingAligned s.newspaceNext then s
    else alignTospace n (addToTospace ⟨.manifestNmVector, 0⟩ s)

/-- The copying of `gc_transport_words`. -/
def copyWords : Nat → Nat → State → State
  | 0, _, s => s
  | n + 1, address, s => copyWords n (address + 1) (addToTospace (s.memory address) s)

/-- `gc_transport_words`: the new address, and the state. -/
def gcTransportWords (address nWords : Nat) (align : Bool) (s : State) : Nat × State :=
  let s := if align then alignTospace c c.floatingAlignment s else s
  let t := copyWords nWords address s
  (s.newspaceNext,
    { t with memory := Function.update t.memory address (makeBrokenHeart s.newspaceNext) })

/-- The eager transport of the tail of a list in `gc_tuple`. -/
def transportCdrs (limit : Nat) : Nat → Object → State → Except Stop State
  | 0, _, _ => .error .outOfFuel
  | fuel + 1, cdr, s =>
    if cdr.type = .list then do
      let r ← gcPrecheckFrom c limit cdr.datum s
      if r.1.isNone then
        let t := gcTransportWords c cdr.datum 2 false r.2
        transportCdrs limit fuel (readTospace c (t.1 + 1) t.2) t.2
      else .ok r.2
    else .ok s

def gcTuple (fuel : Nat) (tuple : Object) (nWords : Nat) (s : State) :
    Except Stop (Object × State) := do
  let r ← gcPrecheckFrom c fuel tuple.datum s
  match r.1 with
  | some newAddress => .ok (tuple.newAddress newAddress, r.2)
  | none =>
    let t := gcTransportWords c tuple.datum nWords false r.2
    if nWords = 2 then
      let s ← transportCdrs c fuel fuel (readTospace c (t.1 + 1) t.2) t.2
      .ok (tuple.newAddress t.1, s)
    else .ok (tuple.newAddress t.1, t.2)

def gcVector (fuel : Nat) (vector : Object) (align : Bool) (s : State) :
    Except Stop (Object × State) := do
  let r ← gcPrecheckFrom c fuel vector.datum s
  match r.1 with
  | some newAddress => .ok (vector.newAddress newAddress, r.2)
  | none =>
    let t := gcTransportWords c vector.datum (1 + (r.2.memory vector.datum).datum) align r.2
    .ok (vector.newAddress t.1, t.2)

def gcTransportWeakPair (pair : Object) (s : State) : Except Stop (Object × State) := do
  let t := gcTransportWords c pair.datum 2 false s
  let oldCar := readTospace c t.1 t.2
  let caddr ← weakReferentAddress oldCar
  if caddr.any c.inFromspace then
    let u := writeTospace c t.1 ⟨.false, oldCar.datum⟩ t.2
    .ok (pair.newAddress t.1,
      { u with
        memory := Function.update u.memory (pair.datum + 1) ⟨oldCar.type, u.weakChain.getD 0⟩
        weakChain := some pair.datum })
  else .ok (pair.newAddress t.1, t.2)

/-- The key of an ephemeron is no pointer, or is not in fromspace, or has been copied. -/
def keyKept (key : Object) (s : State) : Except Stop Bool := do
  let address ← weakReferentAddress key
  match address with
  | none => .ok true
  | some address =>
    if !c.inFromspace address then .ok true
    else do
      let forward ← weakReferentForward key sharpF s
      .ok (forward ≠ sharpF)

def gcTransportEphemeron (oldEphemeron : Object) (s : State) : Except Stop (Object × State) := do
  let t := gcTransportWords c oldEphemeron.datum ephemeronSize false s
  let newEphemeron := oldEphemeron.newAddress t.1
  let oldKey := readTospace c (t.1 + ephemeronKey) t.2
  let u := { t.2 with ephemeronCount := t.2.ephemeronCount + 1 }
  let kept ← keyKept c oldKey u
  if kept then .ok (newEphemeron, writeTospace c t.1 markedEphemeronManifest u)
  else
    let u := writeTospace c t.1 unmarkedEphemeronManifest u
    let index := ephemeronIndex c oldKey.datum
    let u := writeTospace c (t.1 + ephemeronNext) (u.ephemeronArray index) u
    let u := setEntry c newEphemeron (.slot index) u
    let u := writeTospace c (t.1 + ephemeronList) u.ephemeronList u
    .ok (newEphemeron, { u with ephemeronList := newEphemeron })

/-! ## Scanning -/

/-- Where `run_gc_loop` scans. -/
inductive Space
  | oldspace
  | tospace

def load : Space → Nat → State → Object
  | .oldspace, scan, s => s.memory scan
  | .tospace, scan, s => s.tospace scan

def store : Space → Nat → Object → State → State
  | .oldspace, scan, object, s => { s with memory := Function.update s.memory scan object }
  | .tospace, scan, object, s => { s with tospace := Function.update s.tospace scan object }

inductive Handler
  | nonPointer | cell | pair | triple | quadruple | weakPair | ephemeron | ccEntry | ccReturn
  | alignedVector | unalignedVector | brokenHeart | nmv | referenceTrap | linkageSection
  | manifestClosure | undefined

/-- The handlers that `initialize_gc_table` gives to the types of `GC_SPECIAL`. -/
def specialHandler : TypeCode → Handler
  | .brokenHeart => .brokenHeart
  | .referenceTrap => .referenceTrap
  | .linkageSection => .linkageSection
  | .manifestClosure => .manifestClosure
  | .manifestNmVector => .nmv
  | _ => .undefined

/-- `GCT_ENTRY`, as `initialize_gc_table` sets it. -/
def gctEntry : TypeCode → Handler
  | .weakCons => .weakPair
  | .ephemeron => .ephemeron
  | .bigFlonum | .compiledCodeBlock => .alignedVector
  | type =>
    match gcTypeMap type with
    | .nonPointer => .nonPointer
    | .cell => .cell
    | .pair => .pair
    | .triple => .triple
    | .quadruple => .quadruple
    | .vector => .unalignedVector
    | .compiledEntry => .ccEntry
    | .compiledReturn => .ccReturn
    | .undefined => .undefined
    | .special => specialHandler type

section
variable (fuel : Nat) (space : Space) (scan : Nat) (object : Object) (s : State)

/-- A handler that stores a new object and goes on to the next word. -/
def replaceWord (r : Except Stop (Object × State)) : Except Stop (Nat × State) := do
  let r ← r
  .ok (scan + 1, store space scan r.1 r.2)

def gcHandleCell := replaceWord space scan (gcTuple c fuel object 1 s)
def gcHandlePair := replaceWord space scan (gcTuple c fuel object 2 s)
def gcHandleTriple := replaceWord space scan (gcTuple c fuel object 3 s)
def gcHandleQuadruple := replaceWord space scan (gcTuple c fuel object 4 s)
def gcHandleAlignedVector := replaceWord space scan (gcVector c fuel object true s)
def gcHandleUnalignedVector := replaceWord space scan (gcVector c fuel object false s)

def transportObject (transport : Object → State → Except Stop (Object × State)) :
    Except Stop (Object × State) := do
  let r ← gcPrecheckFrom c fuel object.datum s
  match r.1 with
  | some newAddress => .ok (object.newAddress newAddress, r.2)
  | none => transport object r.2

def gcHandleWeakPair :=
  replaceWord space scan (transportObject c fuel object s (gcTransportWeakPair c))

def gcHandleEphemeron :=
  replaceWord space scan (transportObject c fuel object s (gcTransportEphemeron c))

def gcHandleReferenceTrap :=
  replaceWord space scan
    (if object.datum ≤ trapMaxImmediate then .ok (object, s) else gcTuple c fuel object 2 s)

def handle : Except Stop (Nat × State) :=
  match gctEntry object.type with
  | .nonPointer => .ok (scan + 1, s)
  | .cell => gcHandleCell c fuel space scan object s
  | .pair => gcHandlePair c fuel space scan object s
  | .triple => gcHandleTriple c fuel space scan object s
  | .quadruple => gcHandleQuadruple c fuel space scan object s
  | .weakPair => gcHandleWeakPair c fuel space scan object s
  | .ephemeron => gcHandleEphemeron c fuel space scan object s
  | .alignedVector => gcHandleAlignedVector c fuel space scan object s
  | .unalignedVector => gcHandleUnalignedVector c fuel space scan object s
  | .nmv => .ok (scan + 1 + object.datum, s)
  | .referenceTrap => gcHandleReferenceTrap c fuel space scan object s
  | .ccEntry | .ccReturn | .linkageSection | .manifestClosure => .error .death
  | .brokenHeart | .undefined => .error .death

end

/-- `run_gc_loop`; `limit` bounds the loops of the handlers. -/
def runGcLoop (limit : Nat) (space : Space) (pend : State → Nat) :
    Nat → Nat → State → Except Stop State
  | 0, _, _ => .error .outOfFuel
  | fuel + 1, scan, s =>
    if scan < pend s then do
      let r ← handle c limit space scan (load space scan s) s
      runGcLoop limit space pend fuel r.1 r.2
    else .ok s

def gcScanOldspace (fuel scan «end» : Nat) (s : State) : Except Stop State :=
  runGcLoop c fuel .oldspace (fun _ => «end») fuel scan s

/-- `gc_scan_tospace` up to the end of tospace; `scan` is an address in newspace. -/
def gcScanTospace (fuel scan : Nat) (s : State) : Except Stop State :=
  runGcLoop c fuel .tospace State.tospaceNext fuel (scan - c.newspaceStart) s

/-- The copying part of a collection: the words from `start` to `end` are scanned as roots, and
then tospace. -/
def collect (fuel start «end» : Nat) (s : State) : Except Stop State := do
  let s ← gcScanOldspace c fuel start «end» (openTospace c s)
  gcScanTospace c fuel c.newspaceStart s

end MitScheme.Microcode.GcLoop
