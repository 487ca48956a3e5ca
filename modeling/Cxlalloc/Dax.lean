/-
Regions on DAX devices (`extern/shm/src/backend`, `raw/region.rs`).

`Region` takes a chunk as mapped or not mapped.  Here it matters what is mapped where: the
backend opens a file for each chunk, whose length is rounded up to the alignment of a device,
and `mmap` with `MAP_FIXED` puts all of it at the address of the chunk, over whatever is there.

A source is a byte of a device or of anonymous memory.  An address is backed by at most one.
-/
import Cxlalloc.Region

namespace Cxlalloc

/-- `backend::File`: the device it is on, if any, and which part of it. -/
structure File where
  fd : Option ℕ
  size : ℕ
  offset : ℕ

/-- `dax::Device`. -/
structure Device where
  size : ℕ
  align : ℕ
  /-- The next offset that is not taken. -/
  offset : ℕ

/-- `Dax`. -/
structure Dax where
  devices : List Device
  next : ℕ

namespace Dax

/-- `Dax::align`. -/
def align (d : Dax) : ℕ :=
  (d.devices.map Device.align).max?.getD 4096

/-- `Dax::open`. -/
def openFile (d : Dax) (size : ℕ) : Except Panic (File × Dax) :=
  let index := d.next % d.devices.length
  match d.devices[index]? with
  | none => .error .divideByZero
  | some device =>
    let sizeAligned := nextMultipleOf size device.align
    if device.offset + sizeAligned ≤ device.size then
      .ok
        ({ fd := some index, size := sizeAligned, offset := device.offset },
          { devices := d.devices.set index
              { device with offset := device.offset + sizeAligned }
            next := d.next + 1 })
    else .error .deviceExhausted

end Dax

/-- `DaxMmap`. -/
structure DaxMmap where
  dax : Dax
  align : ℕ
  next : ℕ

namespace DaxMmap

/-- `DaxMmap::new`. -/
def new (dax : Dax) : DaxMmap :=
  { dax := dax, align := dax.align, next := 0 }

/-- `DaxMmap::open`: a device and anonymous memory by turns. -/
def openFile (d : DaxMmap) (size : ℕ) : Except Panic (File × DaxMmap) :=
  if d.next % 2 = 0 then
    match d.dax.openFile size with
    | .error e => .error e
    | .ok (file, dax) => .ok (file, { d with dax := dax, next := d.next + 1 })
  else
    .ok
      ({ fd := none
         size := nextMultipleOf (nextMultipleOf size d.align) sizePage
         offset := 0 },
        { d with next := d.next + 1 })

end DaxMmap

/-- The backends with a DAX device. -/
inductive Backend
  | dax (d : Dax)
  | daxMmap (d : DaxMmap)

/-- `Backend::open`. -/
def Backend.openFile (b : Backend) (size : ℕ) : Except Panic (File × Backend) :=
  match b with
  | .dax d => (d.openFile size).map fun (file, d) => (file, .dax d)
  | .daxMmap d => (d.openFile size).map fun (file, d) => (file, .daxMmap d)

/-- A byte of a device, or of the `serial`-th mapping of anonymous memory. -/
inductive Source
  | device (index position : ℕ)
  | anonymous (serial position : ℕ)
  deriving DecidableEq

/-- The bytes of a file. -/
def File.source (f : File) (serial position : ℕ) : Source :=
  match f.fd with
  | some index => .device index (f.offset + position)
  | none => .anonymous serial position

/-- What the addresses of a process stand for. -/
structure Space where
  backing : ℕ → Option Source
  bytes : Source → UInt8
  /-- How often `mmap` has been called. -/
  serial : ℕ

namespace Space

/-- `File::map` with an address: `mmap` replaces what is mapped there. -/
def mmap (s : Space) (file : File) (address : ℕ) : Space :=
  { s with
    backing := fun a =>
      if address ≤ a ∧ a < address + file.size then some (file.source s.serial (a - address))
      else s.backing a
    serial := s.serial + 1 }

/-- The byte at an address. -/
def read (s : Space) (address : ℕ) : Option UInt8 :=
  (s.backing address).map s.bytes

end Space

/-- `Sequential::Normal`, with the address space it is mapped in. -/
structure Chunked where
  backend : Backend
  /-- `reservation.start()`. -/
  start : ℕ
  /-- The size of a chunk. -/
  size : ℕ
  space : Space
  /-- The bytes of the file opened for each chunk that has been mapped. -/
  opened : ℕ → Option (ℕ → Source)

namespace Chunked

/-- Open a file for a chunk and map it. -/
def mapChunk (r : Chunked) (index : ℕ) : Except Panic Chunked :=
  match r.backend.openFile r.size with
  | .error e => .error e
  | .ok (file, backend) =>
    .ok { r with
      backend := backend
      space := r.space.mmap file (r.start + r.size * index)
      opened := Function.update r.opened index (some (file.source r.space.serial)) }

/-- `Sequential::new`, in reserved address space. -/
def new (backend : Backend) (start size : ℕ) (bytes : Source → UInt8) (isLazy : Bool) :
    Except Panic Chunked :=
  let r : Chunked :=
    { backend := backend
      start := start
      size := nextMultipleOf size sizePage
      space := { backing := fun _ => none, bytes := bytes, serial := 0 }
      opened := fun _ => none }
  if isLazy then .ok r else r.mapChunk 0

/-- `Sequential::map`. -/
def map (r : Chunked) (offset : ℕ) : Except Panic Chunked :=
  r.mapChunk (offset / r.size)

/-- A chunk is mapped that was not, or a byte is stored. -/
inductive Step (r : Chunked) : Chunked → Prop
  | map (offset : ℕ) {r' : Chunked} (hfresh : r.opened (offset / r.size) = none)
      (hmap : r.map offset = .ok r') : Step r r'
  | store (address : ℕ) (source : Source) (byte : UInt8)
      (hbacking : r.space.backing address = some source) :
      Step r { r with space.bytes := Function.update r.space.bytes source byte }

/-- Every chunk is backed over its whole range by the file opened for it. -/
def Intact (r : Chunked) : Prop :=
  ∀ j source, r.opened j = some source →
    ∀ i < r.size, r.space.backing (r.start + r.size * j + i) = some (source i)

/-- No byte of a chunk mapped in `r` has changed. -/
def Unchanged (r r' : Chunked) : Prop :=
  ∀ j source, r.opened j = some source →
    ∀ i < r.size, r'.space.read (r.start + r.size * j + i) = r.space.read (r.start + r.size * j + i)

end Chunked

/-- The alignments a backend rounds to. -/
def Backend.aligns : Backend → List ℕ
  | .dax d => d.devices.map Device.align
  | .daxMmap d => d.align :: d.dax.devices.map Device.align

end Cxlalloc
