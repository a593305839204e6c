import DxilSpirv.Bitcode.Module
import DxilSpirv.Bitstream.Streams

/-!
# Modules from bytes

The parser takes the block at the top level that the decoder gives it, if it is a module and the
stream ends there.
-/

namespace DxilSpirv.Bitstream

open DxilSpirv.Program DxilSpirv.Bitcode

/-- Why no module comes back: the reader stopped, or the parser did. -/
inductive ParseStop where
  | reader (e : Stop)
  | parser (e : Bitcode.Stop)
  deriving DecidableEq, Repr

/-- `parseIR`: a module block, and nothing after it. -/
def parseIR (data : List UInt8) (c : Context) : Except ParseStop Context :=
  match readStream data with
  | .error e => .error (.reader e)
  | .ok (toplevel, atEndOfStream) =>
    if toplevel.id ≠ 8 then .error (.parser .returnFalse)
    else if ¬ atEndOfStream then .error (.parser .returnFalse)
    else ((Bitcode.parseIR toplevel c).map Prod.snd).mapError .parser

/-- A module that was written is parsed as its tree is. Anything after it, or another block, is
refused. -/
theorem parseIR_append {id abbrevSize : Nat} {items : List Item} {data : List UInt8}
    (h : writeStream (.block id abbrevSize items) = some data) (more : List UInt8) (c : Context) :
    parseIR (data ++ more) c =
      if id = 8 ∧ more = [] then
        ((Bitcode.parseIR (.block id (entriesOf items)) c).map Prod.snd).mapError .parser
      else .error (.parser .returnFalse) := by
  unfold parseIR
  rw [readStream_runs h more]
  simp only [BlockOrRecord.id]
  by_cases hid : id = 8
  · cases more with
    | nil => simp [hid]
    | cons byte more => simp [hid]
  · simp [hid]

theorem parseIR_append_sample : ∃ data, writeStream (.block 8 3 sampleItems) = some data ∧
    parseIR (data ++ [0]) {} = .error (.parser .returnFalse) := by
  have hsome : (writeStream (.block 8 3 sampleItems)).isSome := by decide +kernel
  obtain ⟨data, hdata⟩ := Option.isSome_iff_exists.mp hsome
  refine ⟨data, hdata, ?_⟩
  rw [parseIR_append hdata [0] {}]
  simp

end DxilSpirv.Bitstream
