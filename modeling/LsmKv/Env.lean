import LsmKv.Header

/-!
# What the engine takes from other crates

The two checksums, the hash behind the Bloom filter, the block compressor and
the floating-point sizing of the Bloom filter are parameters.  Of the
compressor only that decompression undoes compression is used; of the sizing
only that its result fits the fields it is cast to and is at least one.
-/

namespace LsmKv

open Foundation

/-- The external functions. -/
structure Env where
  /-- `crc32fast::hash`. -/
  crc32 : Bytes → UInt32
  /-- `crc32c::crc32c`. -/
  crc32c : Bytes → UInt32
  /-- `xxh3_64_with_seed`. -/
  xxh3 : Bytes → UInt64 → UInt64
  /-- `lz4_flex::compress_prepend_size`. -/
  compress : Bytes → Bytes
  /-- `lz4_flex::decompress_size_prepended`. -/
  decompress : Bytes → Except String Bytes
  /-- The bit count `BloomFilter::new` computes for a number of keys. -/
  bloomBits : Nat → Nat
  /-- The number of probes `BloomFilter::new` computes for a number of keys. -/
  bloomProbes : Nat → Nat
  decompress_compress : ∀ b : Bytes, b.length < 2 ^ 32 → decompress (compress b) = .ok b
  bloomBits_pos : ∀ n, 1 ≤ bloomBits n
  bloomBits_lt : ∀ n, bloomBits n < 2 ^ 64
  bloomProbes_pos : ∀ n, 1 ≤ bloomProbes n
  bloomProbes_lt : ∀ n, bloomProbes n < 2 ^ 32

/-- `Checksum::hash`. -/
def Checksum.hash (env : Env) : Checksum → Bytes → UInt32
  | .isoHdlc => env.crc32
  | .castagnoli => env.crc32c

end LsmKv
