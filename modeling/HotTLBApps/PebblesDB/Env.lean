import HotTLBApps.Lib.Bytes

/-!
# PebblesDB: status values and files (`include/pebblesdb/env.h`)

Files are byte strings.  A `ConcurrentWritableFile` is written at explicit
offsets; the bytes it was never told to write read as zero, which is what the
mmap based implementation of `util/env_posix.cc` gives.  A `SequentialFile` is
read front to back.

The flag `broken` stands for a device that reports an error on every access,
so that the error paths of the callers are part of the model.
-/

namespace HotTLBApps.PebblesDB

/-- `uint64_t` arithmetic: the low 64 bits of a number. -/
@[irreducible]
def u64 (n : Nat) : Nat :=
  n % 2 ^ 64

theorem u64_of_lt {n : Nat} (h : n < 2 ^ 64) : u64 n = n := by
  unfold u64
  exact Nat.mod_eq_of_lt h

/-- The status codes of `include/pebblesdb/status.h` with their messages. -/
inductive Status
  | ok
  | notFound (msg : String)
  | corruption (msg : String)
  | invalidArgument (msg : String)
  | ioError (msg : String)
deriving DecidableEq, Repr

/-- A file written at explicit offsets. -/
structure ConcurrentWritableFile where
  contents : List UInt8
  broken : Bool
deriving DecidableEq, Repr

namespace ConcurrentWritableFile

/-- A file that was just created. -/
def empty : ConcurrentWritableFile :=
  { contents := [], broken := false }

/-- `WriteAt(offset, data)`. -/
def writeAt (file : ConcurrentWritableFile) (offset : Nat)
    (data : List UInt8) : Status × ConcurrentWritableFile :=
  if file.broken then
    (.ioError "write error", file)
  else
    (.ok, { file with contents := Bytes.overwrite 0 file.contents offset data })

end ConcurrentWritableFile

/-- A file read front to back; `rest` holds the bytes not read yet. -/
structure SequentialFile where
  rest : List UInt8
  broken : Bool
deriving DecidableEq, Repr

namespace SequentialFile

/-- `Read(n, result, scratch)`: the bytes read and the file after them. -/
def read (file : SequentialFile) (n : Nat) : Status × List UInt8 × SequentialFile :=
  if file.broken then
    (.ioError "read error", [], file)
  else
    (.ok, file.rest.take n, { file with rest := file.rest.drop n })

/-- `Skip(n)`. -/
def skip (file : SequentialFile) (n : Nat) : Status × SequentialFile :=
  if file.broken then
    (.ioError "read error", file)
  else
    (.ok, { file with rest := file.rest.drop n })

end SequentialFile

end HotTLBApps.PebblesDB
