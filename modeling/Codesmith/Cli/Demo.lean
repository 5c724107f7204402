import Codesmith.Code.Call
import Codesmith.Describe.Finish

/-!
# Demonstrations

Small functions that show what descriptions can do, each with calls and the results they should have.
-/

namespace Codesmith.Cli

open Describe Host

/-- A call of a demonstration with the result it should have. -/
structure DemoCase where
  args : List HostValue
  expected : HostValue
  deriving Repr

/-- A function with its description and some calls. -/
structure Demo where
  name : String
  sig : Signature
  describe : Describe Unit Unit
  cases : List DemoCase

/-- An integer of the host program as wide as a machine word. -/
def hostInt (n : Int) : HostValue :=
  .int (.int none true) n

/-- The number of elements that can be summed up. -/
def dataLength : Nat := 1024

/-- The memory that demonstrations work on: one buffer with the numbers from zero on. -/
def demoMemory : Memory :=
  ⟨#[Memory.pack (.int .w64 false) ((List.range dataLength).map UInt64.ofNat)]⟩

/-- The numbers in memory. -/
def demoData : HostValue :=
  .slice (.int (some .w64) false) (Memory.origin 0) dataLength

/-- The sum of the elements of an array. -/
def sumDemo : Demo where
  name := "sum"
  sig := ⟨[.ptr (.int 64 false), .int 64 false], .int 64 false⟩
  describe := do
    let pos : Position := ⟨"sum", 1⟩
    let p ← here (arg 0 pos)
    let n ← here (arg 1 pos)
    let s ← here (const (.int 64 false) (.ofInt 0) pos)
    let last ← here (index p (.value n) pos)
    forRange p last (some fun x => do
      let t ← here (arith .add s (.value x) pos)
      here (assign s (.value t) pos)) pos
    here (ret (.value s) pos)
  cases :=
    [⟨[demoData, hostInt dataLength], .int (.int (some .w64) false) 523776⟩,
      ⟨[demoData, hostInt 0], .int (.int (some .w64) false) 0⟩]

/-- Whether a number is greater than ten. -/
def thresholdDemo : Demo where
  name := "threshold"
  sig := ⟨[.i64], .i64⟩
  describe := do
    let pos : Position := ⟨"threshold", 1⟩
    let x ← here (arg 0 pos)
    let r ← here (const .i64 (.ofInt 0) pos)
    let c ← here (compare .gt x (.ofInt 10) pos)
    ifElse c (some (here (assign r (.ofInt 1) pos))) none pos
    here (ret (.value r) pos)
  cases := [(5, 0), (10, 0), (15, 1)].map fun p =>
    ⟨[hostInt p.1], .int (.int (some .w64) true) p.2⟩

/-- The number of steps until the Collatz sequence of a number reaches one. -/
def collatzDemo : Demo where
  name := "collatz"
  sig := ⟨[.int 64 false], .int 32 false⟩
  describe := do
    let pos : Position := ⟨"collatz", 1⟩
    let x ← here (var (← here (arg 0 pos)) pos)
    let steps ← here (const (.int 32 false) (.ofInt 0) pos)
    whileLoop (some (some <$> here (compare .gt x (.ofInt 1) pos))) (some do
      let bit ← here (arith .and x (.ofInt 1) pos)
      let even ← here (compare .eq bit (.ofInt 0) pos)
      ifElse even
        (some do
          let half ← here (arith .shr x (.ofInt 1) pos)
          here (assign x (.value half) pos))
        (some do
          let triple ← here (arith .mul x (.ofInt 3) pos)
          let next ← here (arith .add triple (.ofInt 1) pos)
          here (assign x (.value next) pos)) pos
      let more ← here (arith .add steps (.ofInt 1) pos)
      here (assign steps (.value more) pos)) pos
    here (ret (.value steps) pos)
  cases := [(1, 0), (6, 8), (27, 111)].map fun p =>
    ⟨[hostInt p.1], .int (.int (some .w32) false) p.2⟩

/-- The sum of two bytes. -/
def wrapDemo : Demo where
  name := "wrap"
  sig := ⟨[.int 8 false, .int 8 false], .int 8 false⟩
  describe := do
    let pos : Position := ⟨"wrap", 1⟩
    let a ← here (arg 0 pos)
    let b ← here (arg 1 pos)
    let s ← here (arith .add a (.value b) pos)
    here (ret (.value s) pos)
  cases := [⟨[hostInt 200, hostInt 100], .int (.int (some .w8) false) 44⟩]

def demos : List Demo :=
  [collatzDemo, sumDemo, thresholdDemo, wrapDemo]

def demo? (name : String) : Option Demo :=
  demos.find? fun d => d.name == name

end Codesmith.Cli
