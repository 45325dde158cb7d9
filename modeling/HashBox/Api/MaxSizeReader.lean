import HashBox.Lib.Readers

/-!
# The upload size limit (`internal/service/max_size_reader.go`)

`MaxSizeReader.Read` over the `Read` of a multipart part. A read is given the length of its buffer
and returns the bytes it put there. The counters are `int64`; `bytesRead` stays within `maxBytes`,
so they are integers here.
-/

namespace HashBox.Api

open Readers

/-- An `error` of Go. -/
inductive GoError
  /-- `io.EOF` -/
  | eof
  /-- `domain.ErrUploadTooBig` -/
  | errUploadTooBig
  | new (text : String)
  | wrap (text : String) (err : GoError)
deriving DecidableEq, Repr

/-- `errors.Is`. -/
def GoError.is : GoError → GoError → Bool
  | .wrap text err, target => .wrap text err == target || err.is target
  | err, target => err == target

/-- A multipart part. At the end of its content it returns `io.EOF` itself, not an error wrapping
it, as the contract of `io.Reader` has it. -/
structure Part (σ : Type _) extends Reader σ UInt8 GoError where
  final_eof : ∀ s, (final s).is .eof → final s = .eof

structure MaxSizeReader (σ : Type _) where
  part : σ
  maxBytes : Int
  bytesRead : Int

variable {σ : Type _}

def newMaxSizeReader (part : σ) (maxBytes : Int) : MaxSizeReader σ := ⟨part, maxBytes, 0⟩

/-- `Read`, with a buffer of `n` bytes. -/
def MaxSizeReader.read (partRead : σ → Nat → List UInt8 × Option GoError × σ)
    (m : MaxSizeReader σ) (n : Nat) : List UInt8 × Option GoError × MaxSizeReader σ :=
  let remaining := m.maxBytes - m.bytesRead
  if remaining < 0 then ([], some .errUploadTooBig, m)
  else if remaining = 0 then
    let (data, err, part) := partRead m.part 1
    let m := { m with part }
    if data.length > 0 then ([], some .errUploadTooBig, m)
    else
      match err with
      | some err => if err.is .eof then ([], some .eof, m) else ([], some err, m)
      | none => ([], some .eof, m)
  else
    let n := if (n : Int) > remaining then remaining.toNat else n
    let (data, err, part) := partRead m.part n
    (data, err, { m with part, bytesRead := m.bytesRead + data.length })

end HashBox.Api
