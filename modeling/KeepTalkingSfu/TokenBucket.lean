import Mathlib.Data.Rat.Defs
import Mathlib.Algebra.Order.Ring.Unbundled.Rat

/-!
# Token buckets

Byte and frame buckets, refilled continuously. The levels are kept generic:
the server computes with binary floating point, and every result that reads a
level says which numbers it means. Times are nanoseconds, and an elapsed time
that would be negative is zero.

The instance below is the exact reading: rationals, with the infinity that a
rate without a byte limit uses.
-/
namespace KeepTalkingSfu.TokenBucket

/-- The numbers a bucket computes with. -/
class Scalar (F : Type) where
  ofNat : ℕ → F
  /-- Nanoseconds as seconds. -/
  seconds : ℕ → F
  infinity : F
  isInfinite : F → Bool
  add : F → F → F
  sub : F → F → F
  mul : F → F → F
  min : F → F → F
  lt : F → F → Bool

structure Rate (F : Type) where
  bytesPerSecond : F
  burstBytes : F
  framesPerSecond : F
  burstFrames : F
  deriving DecidableEq

structure Bucket (F : Type) where
  rate : Rate F
  bytes : F
  frames : F
  last : ℕ
  deriving DecidableEq

def Bucket.new {F : Type} (rate : Rate F) (now : ℕ) : Bucket F :=
  ⟨rate,rate.burstBytes,rate.burstFrames,now⟩

section
variable {F : Type} [Scalar F]
open Scalar

/-- A rate on frames only. -/
def Rate.frames (perSecond burst : F) : Rate F := ⟨infinity,infinity,perSecond,burst⟩

def refill (level perSecond burst elapsed : F) : F :=
  if isInfinite burst then infinity else min (add level (mul elapsed perSecond)) burst

/-- Takes one frame of `len` bytes if both buckets allow it. A frame larger
than the byte burst needs a full bucket and leaves it in debt. -/
def Bucket.tryTake (b : Bucket F) (len now : ℕ) : Bool × Bucket F :=
  let elapsed := seconds (now-b.last)
  let bytes := refill b.bytes b.rate.bytesPerSecond b.rate.burstBytes elapsed
  let frames := refill b.frames b.rate.framesPerSecond b.rate.burstFrames elapsed
  if lt frames (ofNat 1) || lt bytes (min (ofNat len) b.rate.burstBytes) then
    (false,{ b with bytes := bytes, frames := frames, last := now })
  else
    (true,{ b with
      bytes := sub bytes (ofNat len)
      frames := sub frames (ofNat 1)
      last := now })

end

/-! ### The exact reading -/

inductive Level where
  | finite (q : ℚ)
  | infinite
  deriving DecidableEq

namespace Level

def lift (f : ℚ → ℚ → ℚ) : Level → Level → Level
  | finite p,finite q => finite (f p q)
  | _,_ => infinite

def least : Level → Level → Level
  | finite p,finite q => finite (min p q)
  | finite p,infinite => finite p
  | infinite,l => l

def less : Level → Level → Bool
  | finite p,finite q => p < q
  | finite _,infinite => true
  | infinite,_ => false

end Level

instance : Scalar Level where
  ofNat n := .finite n
  seconds n := .finite (n/1000000000)
  infinity := .infinite
  isInfinite l := l = .infinite
  add := .lift (·+·)
  sub := .lift (·-·)
  mul := .lift (·*·)
  min := .least
  lt := Level.less

end KeepTalkingSfu.TokenBucket
