import Mathlib.Algebra.Group.Nat.Defs
import Mathlib.Data.List.Basic

/-! # The entry points of the heap

The interceptors of the allocation functions pick one of three allocators: the internal one inside
the symbolizer, the one for `dlsym` before XSan is initialised, and that of XSan. -/

namespace Mair.Malloc

/-! ## The heap -/

inductive Allocator where
  | internal
  | dlsym
  | xsan
  deriving DecidableEq

/-- A block that was not freed, with the allocator that produced it and, for the first two of them,
whether it lies in the primary part of the internal allocator. -/
structure Block where
  addr : ℕ
  size : ℕ
  producer : Allocator
  fromPrimary : Bool

def Block.apart (b c : Block) : Bool := b.addr + b.size ≤ c.addr || c.addr + c.size ≤ b.addr

structure Heap where
  blocks : List Block
  mem : ℕ → UInt8

/-- The place that an allocator finds for a block, and what the memory there holds. -/
structure Chunk where
  addr : ℕ
  size : ℕ
  fromPrimary : Bool
  content : ℕ → UInt8

/-- The heap after a call with the pointer that it returns, unless the program dies. -/
abbrev Answer := Option (Heap × ℕ)

namespace Heap

def pointerIsMine (h : Heap) (ptr : ℕ) : Bool :=
  h.blocks.any fun b => b.addr = ptr && b.producer ≠ .xsan && b.fromPrimary

def getActuallyAllocatedSize (h : Heap) (ptr : ℕ) : ℕ :=
  ((h.blocks.find? fun b => b.addr = ptr).map Block.size).getD 0

/-- A place is fit if it holds `size` bytes apart from all other blocks. -/
def allocate (h : Heap) (a : Allocator) (size alignment : ℕ) : Option Chunk → Heap × ℕ
  | none => (h, 0)
  | some c =>
      let b : Block := ⟨c.addr, c.size, a, c.fromPrimary⟩
      if 0 < c.addr ∧ 0 < c.size ∧ size ≤ c.size ∧ alignment ∣ c.addr ∧ h.blocks.all b.apart then
        ({ blocks := b :: h.blocks
           mem := fun x =>
             if c.addr ≤ x ∧ x < c.addr + c.size then c.content x else h.mem x }, c.addr)
      else (h, 0)

def deallocate (h : Heap) (ptr : ℕ) : Heap :=
  { h with blocks := h.blocks.filter fun b => b.addr ≠ ptr }

def memcpy (h : Heap) (dst src size : ℕ) : Heap :=
  { h with mem := fun x => if dst ≤ x ∧ x < dst + size then h.mem (src + (x - dst)) else h.mem x }

def memsetZero (h : Heap) (dst size : ℕ) : Heap :=
  { h with mem := fun x => if dst ≤ x ∧ x < dst + size then 0 else h.mem x }

end Heap

/-! ## Sizes -/

def uptrMax : ℕ := 0xffffffffffffffff

/-- A request for no byte is one for one byte. -/
def atLeastOne (size : ℕ) : ℕ := if size = 0 then 1 else size

def isPowerOfTwo (x : ℕ) : Bool := x ≠ 0 && x &&& (x - 1) = 0

def roundUpTo (size boundary : ℕ) : ℕ :=
  (size + boundary - 1) % (uptrMax + 1) / boundary * boundary

def checkForCallocOverflow (size n : ℕ) : Bool := size ≠ 0 && uptrMax / size < n

def checkForPvallocOverflow (size pageSize : ℕ) : Bool := roundUpTo size pageSize < size

def checkAlignedAllocAlignmentAndSize (alignment size : ℕ) : Bool :=
  alignment ≠ 0 && isPowerOfTwo alignment && size &&& (alignment - 1) = 0

def checkPosixMemalignAlignment (alignment : ℕ) : Bool :=
  alignment ≠ 0 && isPowerOfTwo alignment && alignment % 8 = 0

/-! ## The internal allocator -/

/-- A block of `a`, which is the internal allocator or the one for `dlsym`. -/
def combinedAllocate (h : Heap) (a : Allocator) (size alignment : ℕ) (choice : Option Chunk) :
    Answer :=
  if uptrMax < atLeastOne size + alignment then some (h, 0)
  else if 8 < alignment && !isPowerOfTwo alignment then none
  else some (h.allocate a (atLeastOne size) alignment choice)

def combinedReallocate (h : Heap) (ptr newSize alignment : ℕ) (choice : Option Chunk) : Answer :=
  if ptr = 0 then combinedAllocate h .internal newSize alignment choice
  else if newSize = 0 then some (h.deallocate ptr, 0)
  else
    let memcpySize := min newSize (h.getActuallyAllocatedSize ptr)
    (combinedAllocate h .internal newSize alignment choice).map fun new =>
      if new.2 ≠ 0 then ((new.1.memcpy new.2 ptr memcpySize).deallocate ptr, new.2)
      else (new.1.deallocate ptr, 0)

def dieOnNull (r : Heap × ℕ) : Answer := if r.2 = 0 then none else some r

def internalAlloc (h : Heap) (a : Allocator) (size alignment : ℕ) (choice : Option Chunk) :
    Answer :=
  (combinedAllocate h a size (if alignment = 0 then 8 else alignment) choice).bind dieOnNull

def internalRealloc (h : Heap) (ptr size : ℕ) (choice : Option Chunk) : Answer :=
  (combinedReallocate h ptr size 8 choice).bind dieOnNull

def internalReallocArray (h : Heap) (ptr count size : ℕ) (choice : Option Chunk) : Answer :=
  if checkForCallocOverflow count size then none else internalRealloc h ptr (count * size) choice

def internalCalloc (h : Heap) (a : Allocator) (count size : ℕ) (choice : Option Chunk) : Answer :=
  if checkForCallocOverflow count size then none
  else
    (internalAlloc h a (count * size) 0 choice).map fun new =>
      (new.1.memsetZero new.2 (count * size), new.2)

def internalFree (h : Heap) (ptr : ℕ) : Answer := some (h.deallocate ptr, 0)

/-! ## The allocator for `dlsym` -/

namespace DlSymAllocator

def checkFromPrimary (r : Heap × ℕ) : Answer := if r.1.pointerIsMine r.2 then some r else none

def allocate (h : Heap) (size : ℕ) (choice : Option Chunk) : Answer :=
  (internalAlloc h .dlsym size 8 choice).bind checkFromPrimary

def callocate (h : Heap) (nmemb size : ℕ) (choice : Option Chunk) : Answer :=
  (internalCalloc h .dlsym nmemb size choice).bind checkFromPrimary

def free (h : Heap) (ptr : ℕ) : Answer := internalFree h ptr

def realloc (h : Heap) (ptr newSize : ℕ) (choice : Option Chunk) : Answer :=
  if ptr = 0 then allocate h newSize choice
  else if !h.pointerIsMine ptr then none
  else if newSize = 0 then free h ptr
  else
    let memcpySize := min newSize (h.getActuallyAllocatedSize ptr)
    (allocate h newSize choice).map fun new =>
      ((new.1.memcpy new.2 ptr memcpySize).deallocate ptr, new.2)

end DlSymAllocator

/-! ## The allocator of XSan -/

structure Settings where
  pageSize : ℕ
  allocatorMayReturnNull : Bool
  freesAndReturnsNullOnReallocZero : Bool

section Xsan

variable (settings : Settings) (h : Heap)

/-- A bad request ends the program unless null may be returned. -/
def onBadRequest (r : Heap × ℕ) : Answer :=
  if r.2 = 0 && !settings.allocatorMayReturnNull then none else some r

def xsanAllocate (size alignment : ℕ) (choice : Option Chunk) : Answer :=
  onBadRequest settings (h.allocate .xsan (atLeastOne size) (max alignment 8) choice)

def xsanFree (ptr : ℕ) : Answer := some (h.deallocate ptr, 0)

def xsanMalloc (size : ℕ) (choice : Option Chunk) : Answer := xsanAllocate settings h size 8 choice

def xsanCalloc (nmemb size : ℕ) (choice : Option Chunk) : Answer :=
  if checkForCallocOverflow size nmemb then onBadRequest settings (h, 0)
  else
    (xsanAllocate settings h (nmemb * size) 8 choice).map fun new =>
      if new.2 ≠ 0 then (new.1.memsetZero new.2 (nmemb * size), new.2) else new

def xsanRealloc (ptr size : ℕ) (choice : Option Chunk) : Answer :=
  if ptr = 0 then xsanAllocate settings h size 8 choice
  else if size = 0 && settings.freesAndReturnsNullOnReallocZero then some (h.deallocate ptr, 0)
  else
    let memcpySize := min (atLeastOne size) (h.getActuallyAllocatedSize ptr)
    (xsanAllocate settings h (atLeastOne size) 8 choice).map fun new =>
      if new.2 ≠ 0 then ((new.1.memcpy new.2 ptr memcpySize).deallocate ptr, new.2) else new

def xsanReallocarray (ptr nmemb size : ℕ) (choice : Option Chunk) : Answer :=
  if checkForCallocOverflow size nmemb then onBadRequest settings (h, 0)
  else xsanRealloc settings h ptr (nmemb * size) choice

def xsanValloc (size : ℕ) (choice : Option Chunk) : Answer :=
  xsanAllocate settings h size settings.pageSize choice

def xsanPvalloc (size : ℕ) (choice : Option Chunk) : Answer :=
  if checkForPvallocOverflow size settings.pageSize then onBadRequest settings (h, 0)
  else
    let size := if size ≠ 0 then roundUpTo size settings.pageSize else settings.pageSize
    xsanAllocate settings h size settings.pageSize choice

def xsanMemalign (alignment size : ℕ) (choice : Option Chunk) : Answer :=
  if !isPowerOfTwo alignment then onBadRequest settings (h, 0)
  else xsanAllocate settings h size alignment choice

def xsanAlignedAlloc (alignment size : ℕ) (choice : Option Chunk) : Answer :=
  if !checkAlignedAllocAlignmentAndSize alignment size then onBadRequest settings (h, 0)
  else xsanAllocate settings h size alignment choice

def xsanPosixMemalign (alignment size : ℕ) (choice : Option Chunk) : Answer :=
  if !checkPosixMemalignAlignment alignment then onBadRequest settings (h, 0)
  else xsanAllocate settings h size alignment choice

end Xsan

/-! ## Interceptors -/

inductive Mode where
  | uninitialised
  | symbolizer
  | normal
  deriving DecidableEq

/-- What an interceptor does: the pointer that it hands to an allocator, and the answer. -/
structure Outcome where
  handed : Option (Allocator × ℕ)
  answer : Answer

def fresh (answer : Answer) : Outcome := ⟨none, answer⟩

def handTo (a : Allocator) (ptr : ℕ) (answer : Answer) : Outcome :=
  ⟨if ptr = 0 then none else some (a, ptr), answer⟩

section Interceptors

variable (settings : Settings) (h : Heap) (mode : Mode)

def free (ptr : ℕ) : Outcome :=
  if ptr = 0 then fresh (some (h, 0))
  else if mode = .symbolizer then handTo .internal ptr (internalFree h ptr)
  else if h.pointerIsMine ptr then handTo .dlsym ptr (DlSymAllocator.free h ptr)
  else handTo .xsan ptr (xsanFree h ptr)

def malloc (size : ℕ) (choice : Option Chunk) : Outcome :=
  if mode = .symbolizer then fresh (internalAlloc h .internal size 0 choice)
  else if mode = .uninitialised then fresh (DlSymAllocator.allocate h size choice)
  else fresh (xsanMalloc settings h size choice)

def calloc (nmemb size : ℕ) (choice : Option Chunk) : Outcome :=
  if mode = .symbolizer then fresh (internalCalloc h .internal size size choice)
  else if mode = .uninitialised then fresh (DlSymAllocator.callocate h nmemb size choice)
  else fresh (xsanCalloc settings h nmemb size choice)

def realloc (ptr size : ℕ) (choice : Option Chunk) : Outcome :=
  if mode = .symbolizer then handTo .internal ptr (internalRealloc h ptr size choice)
  else if mode = .uninitialised || h.pointerIsMine ptr then
    handTo .dlsym ptr (DlSymAllocator.realloc h ptr size choice)
  else handTo .xsan ptr (xsanRealloc settings h ptr size choice)

def reallocarray (ptr nmemb size : ℕ) (choice : Option Chunk) : Outcome :=
  if mode = .symbolizer then handTo .internal ptr (internalReallocArray h ptr size size choice)
  else handTo .xsan ptr (xsanReallocarray settings h ptr nmemb size choice)

def memalign (boundary size : ℕ) (choice : Option Chunk) : Outcome :=
  fresh (xsanMemalign settings h boundary size choice)

def libcMemalign (boundary size : ℕ) (choice : Option Chunk) : Outcome :=
  fresh (xsanMemalign settings h boundary size choice)

def alignedAlloc (boundary size : ℕ) (choice : Option Chunk) : Outcome :=
  if mode = .symbolizer then fresh (internalAlloc h .internal size boundary choice)
  else fresh (xsanAlignedAlloc settings h boundary size choice)

def posixMemalign (alignment size : ℕ) (choice : Option Chunk) : Outcome :=
  if mode = .symbolizer then fresh (internalAlloc h .internal size alignment choice)
  else fresh (xsanPosixMemalign settings h alignment size choice)

def valloc (size : ℕ) (choice : Option Chunk) : Outcome :=
  if mode = .symbolizer then fresh (internalAlloc h .internal size settings.pageSize choice)
  else fresh (xsanValloc settings h size choice)

def pvalloc (size : ℕ) (choice : Option Chunk) : Outcome :=
  if mode = .symbolizer then
    let size := if size ≠ 0 then roundUpTo size settings.pageSize else settings.pageSize
    fresh (internalAlloc h .internal size settings.pageSize choice)
  else fresh (xsanPvalloc settings h size choice)

end Interceptors

/-! ## Programs -/

inductive Call where
  | malloc (size : ℕ)
  | calloc (nmemb size : ℕ)
  | realloc (ptr size : ℕ)
  | reallocarray (ptr nmemb size : ℕ)
  | memalign (boundary size : ℕ)
  | libcMemalign (boundary size : ℕ)
  | alignedAlloc (boundary size : ℕ)
  | posixMemalign (alignment size : ℕ)
  | valloc (size : ℕ)
  | pvalloc (size : ℕ)
  | free (ptr : ℕ)

namespace Call

def outcome (settings : Settings) (h : Heap) (mode : Mode) (choice : Option Chunk) :
    Call → Outcome
  | malloc size => Malloc.malloc settings h mode size choice
  | calloc nmemb size => Malloc.calloc settings h mode nmemb size choice
  | realloc ptr size => Malloc.realloc settings h mode ptr size choice
  | reallocarray ptr nmemb size => Malloc.reallocarray settings h mode ptr nmemb size choice
  | memalign boundary size => Malloc.memalign settings h boundary size choice
  | libcMemalign boundary size => Malloc.libcMemalign settings h boundary size choice
  | alignedAlloc boundary size => Malloc.alignedAlloc settings h mode boundary size choice
  | posixMemalign alignment size => Malloc.posixMemalign settings h mode alignment size choice
  | valloc size => Malloc.valloc settings h mode size choice
  | pvalloc size => Malloc.pvalloc settings h mode size choice
  | free ptr => Malloc.free h mode ptr

/-- The number of bytes that the program asks for. -/
def requested : Call → ℕ
  | malloc size | realloc _ size | memalign _ size | libcMemalign _ size | alignedAlloc _ size
  | posixMemalign _ size | valloc size | pvalloc size => size
  | calloc nmemb size | reallocarray _ nmemb size => nmemb * size
  | free _ => 0

/-- The pointer that the program passes, or null. -/
def operand : Call → ℕ
  | realloc ptr _ | reallocarray ptr _ _ | free ptr => ptr
  | _ => 0

/-- `memalign` and `__libc_memalign` do not look at the mode. -/
def isMemalign : Call → Bool
  | memalign _ _ | libcMemalign _ _ => true
  | _ => false

end Call

/-- How the program obtained a pointer. -/
structure Source where
  insideSymbolizer : Bool
  fromMemalign : Bool

/-- The heap with a record of the program's pointers. A call can be the last one. -/
structure Program where
  heap : Heap
  source : ℕ → Source
  died : Bool

/-- A call, with the place that an allocator finds, or writes of the program to its memory. -/
inductive Event where
  | call (mode : Mode) (call : Call) (choice : Option Chunk)
  | write (mem : ℕ → UInt8)

structure Observation where
  before : Heap
  call : Call
  outcome : Outcome

def step (settings : Settings) (p : Program) : Event → Option (Program × List Observation)
  | .write mem => if p.died then none else some ({ p with heap := { p.heap with mem } }, [])
  | .call mode call choice =>
      if p.died then none
      else
        let outcome := call.outcome settings p.heap mode choice
        let next :=
          match outcome.answer with
          | none => { p with died := true }
          | some (heap, ptr) =>
              { p with
                heap
                source := fun a =>
                  if a = ptr then ⟨mode = .symbolizer, call.isMemalign⟩ else p.source a }
        some (next, [⟨p.heap, call, outcome⟩])

def initialProgram : Program where
  heap := ⟨[], fun _ => 0⟩
  source _ := ⟨false, false⟩
  died := false

end Mair.Malloc
