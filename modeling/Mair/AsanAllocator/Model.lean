import Mathlib.Algebra.Group.Nat.Defs
import Mathlib.Data.List.Basic

/-! # The heap of the runtime

User chunks carry a header in front of the user memory; blocks that the runtime allocates for
itself carry none. Which of the two a pointer belongs to is read off one shadow byte. -/

namespace Mair.AsanAllocator

/-! ## Blocks and memory -/

/-- A block of the underlying allocator with its actually allocated size. -/
structure Block where
  beg : ℕ
  size : ℕ
  fromPrimary : Bool
  beg_pos : 0 < beg
  size_pos : 0 < size
  beg_aligned : 16 ∣ beg
  size_aligned : 16 ∣ size
  deriving DecidableEq

def Block.contains (b : Block) (a : ℕ) : Bool := b.beg ≤ a && a < b.beg + b.size

def Block.separate (b c : Block) : Bool := b.beg + b.size ≤ c.beg || c.beg + c.size ≤ b.beg

inductive Shadow where
  | addressable | firstBytes | heapLeftRedzone | heapFree | internalHeap
  deriving DecidableEq

inductive ChunkState where
  | invalid | allocated | quarantine | garbage
  deriving DecidableEq

structure ChunkHeader where
  chunkState : ChunkState
  usedSize : ℕ
  deriving DecidableEq

inductive Owner where
  | user | internal | quarantineBatch
  deriving DecidableEq

/-- An allocation that its owner has not freed. -/
structure Live where
  ptr : ℕ
  size : ℕ
  block : Block
  owner : Owner
  deriving DecidableEq

/-- `headers a` is what a header read at the address `a` sees, a multiple of 16. The last five
fields record what the program did. -/
structure Heap where
  mapped : List Block
  free : List ℕ
  shadow : ℕ → Shadow
  headers : ℕ → ChunkHeader
  quarantine : List ℕ
  live : List Live
  withHeader : List ℕ
  withoutHeader : List ℕ
  /-- Chunks that left the quarantine and whose memory was not handed out since. -/
  recycled : List ℕ
  /-- Internal blocks that were freed and whose memory was not handed out since. -/
  internalFreed : List ℕ

namespace Heap

def poisonShadow (s : Heap) (beg size : ℕ) (value : Shadow) : Heap :=
  { s with shadow := fun a => if beg ≤ a ∧ a < beg + size then value else s.shadow a }

theorem shadow_poisonShadow_of_mem {s : Heap} {beg size a : ℕ} {value : Shadow} (hbeg : beg ≤ a)
    (hend : a < beg + size) : (s.poisonShadow beg size value).shadow a = value :=
  if_pos ⟨hbeg, hend⟩

theorem shadow_poisonShadow_of_not_mem {s : Heap} {beg size a : ℕ} {value : Shadow}
    (ha : a < beg ∨ beg + size ≤ a) : (s.poisonShadow beg size value).shadow a = s.shadow a :=
  if_neg (by omega)

def setHeader (s : Heap) (a : ℕ) (header : ChunkHeader) : Heap :=
  { s with headers := fun a' => if a' = a then header else s.headers a' }

/-- Writes of any content to a range. -/
def fillHeaders (s : Heap) (beg size : ℕ) (fill : ℕ → ChunkHeader) : Heap :=
  { s with headers := fun a => if beg ≤ a ∧ a < beg + size then fill a else s.headers a }

/-! ## The underlying allocator -/

def forget (s : Heap) (block : Block) : Heap :=
  { s with
    recycled := s.recycled.filter fun p => !block.contains p
    internalFreed := s.internalFreed.filter fun p => !block.contains p }

/-- Hand out a freed block of the primary allocator, or map a new one. -/
def take (s : Heap) (block : Block) : Option Heap :=
  if block ∈ s.mapped then
    if block.fromPrimary && block.beg ∈ s.free then
      some ({ s with free := s.free.erase block.beg }.forget block)
    else none
  else if s.mapped.all block.separate then
    let s := { s with mapped := block :: s.mapped }.forget block
    some (if block.fromPrimary then s.poisonShadow block.beg block.size .heapLeftRedzone else s)
  else none

/-- A block of the secondary allocator is unmapped, any other pointer is put into a free
list. -/
def release (s : Heap) (ptr : ℕ) : Heap :=
  match s.mapped.find? fun b => b.beg = ptr && !b.fromPrimary with
  | some b =>
      { s with mapped := s.mapped.erase b }.poisonShadow b.beg b.size .addressable
  | none => { s with free := ptr :: s.free }

def getBlockBegin (s : Heap) (a : ℕ) : Option Block := s.mapped.find? fun b => b.contains a

/-! ## What the program sees -/

def isLive (s : Heap) (owner : Owner) (ptr : ℕ) : Bool :=
  s.live.any fun l => l.ptr = ptr && l.owner = owner

def blockLive (s : Heap) (ptr : ℕ) : Bool := s.live.any fun l => l.block.contains ptr

/-- The memory of a freed pointer was not handed out since. -/
def untouched (s : Heap) (ptr : ℕ) : Bool :=
  ptr ∈ s.quarantine || ptr ∈ s.recycled || ptr ∈ s.internalFreed

def forgetLive (s : Heap) (ptr : ℕ) : Heap :=
  { s with live := s.live.filter fun l => l.ptr ≠ ptr }

end Heap

inductive Path where
  | headerless | quarantined | reported | faulted
  deriving DecidableEq

/-- What a deallocation, an entry into the free lists and a reallocation show, beside what was
true of the pointer then. -/
inductive Observation where
  | freed (path : Path) (liveInternal hadHeader untouched : Bool)
  | entered (live queued : Bool)
  | copied (liveInternal hadHeader : Bool) (count oldSize newSize : ℕ)
  deriving DecidableEq

/-! ## Allocation -/

/-- The logarithms of the redzone sizes over 16. -/
structure Options where
  minRedzoneLog : ℕ
  maxRedzoneLog : ℕ

def computeRZLog (options : Options) (userRequestedSize : ℕ) : ℕ :=
  let rzLog :=
    if userRequestedSize ≤ 64 - 16 then 0
    else if userRequestedSize ≤ 128 - 32 then 1
    else if userRequestedSize ≤ 512 - 64 then 2
    else if userRequestedSize ≤ 4096 - 128 then 3
    else if userRequestedSize ≤ 2 ^ 14 - 256 then 4
    else if userRequestedSize ≤ 2 ^ 15 - 512 then 5
    else if userRequestedSize ≤ 2 ^ 16 - 1024 then 6
    else 7
  min (max rzLog options.minRedzoneLog) options.maxRedzoneLog

def rzLog2Size (rzLog : ℕ) : ℕ := 16 * 2 ^ rzLog

def roundUpTo (size boundary : ℕ) : ℕ := (size + boundary - 1) / boundary * boundary

def roundDownTo (size boundary : ℕ) : ℕ := size / boundary * boundary

def allocateInternel (s : Heap) (size : ℕ) (block : Block) : Option (Heap × ℕ) :=
  let size := if size = 0 then 1 else size
  if block.size < size then none
  else
    (s.take block).map fun s =>
      ({ s.poisonShadow block.beg block.size .internalHeap with
        live := ⟨block.beg, size, block, .internal⟩ :: s.live
        withoutHeader := block.beg :: s.withoutHeader }, block.beg)

/-- What `Allocate` asks of the underlying allocator for a user chunk. -/
def neededSize (size rzSize alignment : ℕ) (fromPrimary : Bool) : ℕ :=
  let roundedSize := roundUpTo (max size 16) alignment
  roundedSize + rzSize + (if 8 < alignment then alignment else 0) +
    (if fromPrimary then 0 else rzSize)

/-- The user memory of a chunk that starts in a block at `allocBeg`. -/
def userBegin (allocBeg rzSize alignment : ℕ) : ℕ :=
  if (allocBeg + rzSize) % alignment = 0 then allocBeg + rzSize
  else roundUpTo (allocBeg + rzSize) alignment

/-- The shadow of a new chunk. -/
def poisonChunk (s : Heap) (block : Block) (userBeg size : ℕ) : Heap :=
  let shadowVal := s.shadow block.beg
  let tailBeg := roundUpTo (userBeg + size) 8
  let tailEnd := block.beg + block.size
  let s :=
    if !block.fromPrimary || shadowVal = .addressable || shadowVal = .internalHeap then
      (s.poisonShadow block.beg (userBeg - block.beg) .heapLeftRedzone).poisonShadow tailBeg
        (tailEnd - tailBeg) .heapLeftRedzone
    else s
  let rounded := roundDownTo size 8
  let s := s.poisonShadow userBeg rounded .addressable
  if size = rounded then s else s.poisonShadow (userBeg + rounded) 8 .firstBytes

/-- `fill` is what the magic word in front of the chunk and the fill of the user memory leave
in the block. -/
def allocateUser (options : Options) (s : Heap) (size alignmentLog : ℕ) (block : Block)
    (fill : ℕ → ChunkHeader) : Option (Heap × ℕ) :=
  let alignment := max (2 ^ alignmentLog) 8
  let size := if size = 0 then 1 else size
  let rzSize := rzLog2Size (computeRZLog options size)
  let needed := neededSize size rzSize alignment block.fromPrimary
  let userBeg := userBegin block.beg rzSize alignment
  if block.size < needed then none
  else if block.beg + needed < userBeg + size then none
  else
    (s.take block).map fun s =>
      ({ ((poisonChunk s block userBeg size).fillHeaders block.beg block.size fill).setHeader
          (userBeg - 16) ⟨.allocated, size⟩ with
        live := ⟨userBeg, size, block, .user⟩ :: s.live
        withHeader := userBeg :: s.withHeader }, userBeg)

/-- A call of `Allocate`: the block that the underlying allocator gives, if any, and whether
the call is made inside the internal scope. -/
structure Request where
  internal : Bool
  size : ℕ
  alignmentLog : ℕ
  given : Option Block
  fill : ℕ → ChunkHeader

/-- `none` is a request that the underlying allocator cannot have answered so. -/
def allocate (options : Options) (s : Heap) (request : Request) : Option (Heap × ℕ) :=
  match request.given with
  | none => some (s, 0)
  | some block =>
      if request.internal then allocateInternel s request.size block
      else allocateUser options s request.size request.alignmentLog block request.fill

/-! ## Deallocation -/

def isHeapAllocatedIntenally (s : Heap) (ptr : ℕ) : Bool := s.shadow ptr = .internalHeap

def deallocateInternal (s : Heap) (ptr : ℕ) : Heap × List Observation :=
  let before := s.forgetLive ptr
  ({ before.release ptr with internalFreed := ptr :: s.internalFreed },
    [.freed .headerless (s.isLive .internal ptr) (ptr ∈ s.withHeader) (s.untouched ptr),
      .entered (before.blockLive ptr) (ptr ∈ s.free)])

def quarantineChunk (s : Heap) (ptr : ℕ) (fill : ℕ → ChunkHeader) : Heap :=
  let used := (s.headers (ptr - 16)).usedSize
  { ((s.forgetLive ptr).fillHeaders ptr used fill).setHeader (ptr - 16)
        ⟨.quarantine, used⟩ |>.poisonShadow ptr (roundUpTo used 8) .heapFree with
    quarantine := ptr :: s.quarantine }

def deallocate (s : Heap) (ptr : ℕ) (fill : ℕ → ChunkHeader) : Heap × List Observation :=
  let observe (path : Path) : Observation :=
    .freed path (s.isLive .internal ptr) (ptr ∈ s.withHeader) (s.untouched ptr)
  if ptr = 0 then (s, [])
  else if isHeapAllocatedIntenally s ptr then deallocateInternal s ptr
  else
    match s.getBlockBegin (ptr - 16) with
    | none => (s, [observe .faulted])
    | some _ =>
        if (s.headers (ptr - 16)).chunkState = .allocated then
          (quarantineChunk s ptr fill, [observe .quarantined])
        else (s, [observe .reported])

def memcpySize (s : Heap) (ptr newSize : ℕ) : ℕ := min newSize (s.headers (ptr - 16)).usedSize

/-- `copied` is what the copy leaves in the new block, `fill` what the deallocation leaves in the
old one. -/
def reallocate (options : Options) (s : Heap) (ptr : ℕ) (request : Request)
    (copied fill : ℕ → ChunkHeader) : Option (Heap × List Observation) :=
  if ptr = 0 || request.size = 0 then none
  else
    (allocate options s request).map fun allocated =>
      let s := allocated.1
      let observe (path : Path) : Observation :=
        .freed path (s.isLive .internal ptr) (ptr ∈ s.withHeader) (s.untouched ptr)
      if allocated.2 = 0 then (s, [])
      else
        match s.getBlockBegin (ptr - 16) with
        | none => (s, [observe .faulted])
        | some _ =>
            let oldSize := ((s.live.find? fun l => l.ptr = ptr).map Live.size).getD 0
            let count := memcpySize s ptr request.size
            let freed := deallocate (s.fillHeaders allocated.2 count copied) ptr fill
            (freed.1, .copied (s.isLive .internal ptr) (ptr ∈ s.withHeader) count oldSize
              request.size :: freed.2)

/-- The magic word, the chunk state and the shadow of a chunk that leaves the quarantine. -/
def clearChunk (s : Heap) (block : Block) (ptr : ℕ) : Heap :=
  let used := (s.headers (ptr - 16)).usedSize
  if block.fromPrimary then
    ((if block.beg = ptr - 16 then s else s.setHeader block.beg ⟨.invalid, 0⟩).setHeader (ptr - 16)
      ⟨.invalid, used⟩).poisonShadow ptr (roundUpTo used 8) .heapLeftRedzone
  else s

/-- `QuarantineCallback::Recycle`; `none` is a failed check. -/
def recycle (s : Heap) (ptr : ℕ) : Option (Heap × List Observation) :=
  (s.getBlockBegin (ptr - 16)).bind fun block =>
    if block.fromPrimary && (s.headers (ptr - 16)).chunkState ≠ .quarantine then none
    else
      let cleared := { clearChunk s block ptr with quarantine := s.quarantine.erase ptr }
      some ({ cleared.release block.beg with recycled := ptr :: s.recycled },
        [.entered (s.blockLive block.beg) (block.beg ∈ s.free)])

/-! ## Runs -/

inductive Event where
  | allocate (request : Request)
  | deallocate (ptr : ℕ) (fill : ℕ → ChunkHeader)
  | reallocate (ptr : ℕ) (request : Request) (copied fill : ℕ → ChunkHeader)
  | recycle (ptr : ℕ)
  | write (a : ℕ) (header : ChunkHeader)
  | batchAllocate (size : ℕ) (block : Block) (fill : ℕ → ChunkHeader)
  | batchDeallocate (ptr : ℕ)

/-- The program passes null or any pointer it ever received. -/
def received (s : Heap) (ptr : ℕ) : Bool :=
  ptr = 0 || ptr ∈ s.withHeader || ptr ∈ s.withoutHeader

def step (options : Options) (s : Heap) : Event → Option (Heap × List Observation)
  | .allocate request => (allocate options s request).map fun allocated => (allocated.1, [])
  | .deallocate ptr fill => if received s ptr then some (deallocate s ptr fill) else none
  | .reallocate ptr request copied fill =>
      if received s ptr then reallocate options s ptr request copied fill else none
  | .recycle ptr => if ptr ∈ s.quarantine then recycle s ptr else none
  | .write a header =>
      if s.live.any fun l => l.ptr ≤ a && a < l.ptr + l.size then some (s.setHeader a header, [])
      else none
  | .batchAllocate size block fill =>
      if block.size < size then none
      else
        (s.take block).map fun s =>
          ({ s.fillHeaders block.beg block.size fill with
            live := ⟨block.beg, size, block, .quarantineBatch⟩ :: s.live }, [])
  | .batchDeallocate ptr =>
      if s.isLive .quarantineBatch ptr then
        let before := s.forgetLive ptr
        some (before.release ptr, [.entered (before.blockLive ptr) (ptr ∈ s.free)])
      else none

def initialHeap : Heap where
  mapped := []
  free := []
  shadow _ := .addressable
  headers _ := ⟨.invalid, 0⟩
  quarantine := []
  live := []
  withHeader := []
  withoutHeader := []
  recycled := []
  internalFreed := []

end Mair.AsanAllocator
