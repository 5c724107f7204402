import Codesmith.Proofs.Describe.Constants
import Codesmith.Proofs.Direct.Laps
import Codesmith.Proofs.Script.Meaning

/-!
# Loops over numbers and elements

The loops over numbers and over elements are read as loops with a cursor: a variable of its own that is
compared with a bound before each round and advanced after it. A body that does not assign to the cursor or
to the bound, and of which each execution completes, is run exactly as often as the bound says, with the
cursor at one place after the other.

The code of a steady description does what its reading does, in which such a loop stands between what comes
before and what comes after. So this holds of the code on both back ends.
-/

namespace Codesmith.Script

open Direct
open Describe
variable {made : List Node × List Ty} {ty : Ty} {first last : Name} {c : Cond} {bound : Operand}
  {next : BinaryOp} {body : Value → Scope → List Node × Scope} {n : Int} {k : Nat} {t : Host.HostType}

/-! ## Numbers of variables -/

/-- What is read in a scope makes variables of new numbers only. -/
structure Numbers (sc : Scope) (read : List Node × Scope) : Prop where
  size : sc.size ≤ read.2.size
  made : ∀ v ∈ madeAll read.1, sc.size ≤ v

variable {sc sc₁ sc2 : Scope} {ns ms : List Node}

theorem size_grow (sc : Scope) (types : List Ty) : (sc.grow types).size = sc.size + types.length := by
  simp [Scope.grow, Scope.size]

theorem size_bindAll (stem : Name) (i : Nat) (vs : List Value) (sc : Scope) :
    (Scope.bindAll stem i vs sc).size = sc.size := by
  induction vs generalizing i sc with
  | nil => rfl
  | cons v vs ih => exact ih (i + 1) (sc.bind _ v)

theorem numbers_nil (h : sc.size ≤ sc1.size) : Numbers sc ([], sc1) :=
  ⟨h, nofun⟩

theorem Numbers.append (h : Numbers sc (ns, sc1)) (h' : Numbers sc1 (ms, sc2)) : Numbers sc (ns ++ ms, sc2) := by
  refine ⟨h.size.trans h'.size, fun v hv => ?_⟩
  rw [madeAll_append, List.mem_append] at hv
  exact hv.elim (h.made v) fun hv => h.size.trans (h'.made v hv)

theorem size_le_grow (sc : Scope) (types : List Ty) : sc.size ≤ (sc.grow types).size :=
  (size_grow sc types).symm ▸ Nat.le_add_right _ _

theorem numbers_grow (h : ∀ v ∈ madeAll made.1, sc.size ≤ v) : Numbers sc (made.1, sc.grow made.2) :=
  ⟨size_le_grow sc made.2, h⟩

theorem numbers_yield (bind : Name) (h : ∀ v ∈ madeAll made.1, sc.size ≤ v) :
    Numbers sc (sc.yield bind made) :=
  ⟨size_le_grow sc made.2, h⟩

theorem made_binary (op : BinaryOp) (v : Value) (x : Operand) (out : Nat) :
    ∀ u ∈ madeAll (op.read v x out).1, out ≤ u := by
  cases op <;> simp [BinaryOp.read, madeAll, Node.made]

theorem made_unary (op : UnaryOp) (v : Value) (out : Nat) : ∀ u ∈ madeAll (op.read v out).1, out ≤ u := by
  cases op <;> simp [UnaryOp.read, madeAll, Node.made]

theorem numbers_cursorLoop {first : Source} (h : ∀ i sc, Numbers sc (body i sc)) :
    Numbers sc (sc.cursorLoop ty first c bound next body) := by
  set sc1 := sc.grow [ty] with hsc1
  have h1 : sc1.size = sc.size + 1 := size_grow sc [ty]
  set sc2 := sc1.grow [.bool] with hsc2
  have h2 : sc2.size = sc.size + 2 := by rw [hsc2, size_grow, h1]; rfl
  have hbody := h sc1.newest sc2
  set read := body sc1.newest sc2 with hread
  constructor
  · show sc.size ≤ (read.2.grow _).size
    rw [size_grow]
    have := hbody.size
    omega
  · intro v hv
    simp only [Scope.cursorLoop, madeAll, Node.made, BinaryOp.read, madeAll_append, List.mem_append,
      List.mem_cons, List.not_mem_nil, or_false, ← hsc1, ← hsc2, ← hread] at hv
    obtain rfl | (rfl | hv) | hv := hv
    · exact le_rfl
    · omega
    · have := made_binary _ _ _ _ v hv
      have := hbody.size
      omega
    · have := hbody.made v hv
      omega

/-- The loop that a loop with a cursor is read as. -/
def Scope.cycle (sc : Scope) (ty : Ty) (c : Cond) (bound : Operand) (next : BinaryOp)
    (body : Value → Scope → List Node × Scope) : Cycle :=
  let sc₁ := sc.grow [ty]
  let sc₂ := sc₁.grow [.bool]
  let read := body sc₁.newest sc₂
  let step := next.read sc₁.newest (.ofInt 1) read.2.size
  { test := ((BinaryOp.compare c).read sc₁.newest bound sc₁.size).1
    condition := some sc₂.newest.cell
    step := step.1 ++ [.assign sc₁.newest.cell (.cell (read.2.grow step.2).newest.cell)]
    body := read.1 }

theorem cursorLoop_fst (sc : Scope) (ty : Ty) (first : Source) (c : Cond) (bound : Operand) (next : BinaryOp)
    (body : Value → Scope → List Node × Scope) : (sc.cursorLoop ty first c bound next body).1 =
      [.take sc.size first] ++ [(sc.cycle ty c bound next body).node true] :=
  rfl

def cursorBody (bind : Name) (b : Body) (i : Value) (sc : Scope) : List Node × Scope :=
  b.read (sc.bind bind i)

/-- A body that is given what the cursor points to. -/
def elementBody (bind : Name) (b : Body) (p : Value) (sc : Scope) : List Node × Scope :=
  let sc₁ := sc.grow [pointee p.ty]
  let read := b.read (sc₁.bind bind sc₁.newest)
  ([.make sc.size (.load (pointee p.ty).kind 0) p.cell (.cell p.cell)] ++ read.1, read.2)

section Bodies

variable {b : Body} (hb : ∀ sc, Numbers sc (b.read sc)) (bind : Name) (p : Value) (sc : Scope)
include hb

theorem numbers_cursorBody : Numbers sc (cursorBody bind b p sc) :=
  ⟨(hb (sc.bind bind p)).size, (hb (sc.bind bind p)).made⟩

theorem numbers_elementBody : Numbers sc (elementBody bind b p sc) :=
  (numbers_grow (made_unary .load p sc.size)).append (numbers_cursorBody hb bind _ _)

end Bodies

/-- The loop over the numbers below a count, after the count was found. -/
def Scope.countedLoop (sc : Scope) (count : Value) (bind : Name) (b : Body) : List Node × Scope :=
  sc.cursorLoop count.ty ((Operand.ofInt 0).source count.ty) .lt (.value count) (.arith .add) (cursorBody bind b)

/-- The loop over the pointers from one to another. -/
def Scope.rangeLoop (sc : Scope) (first last : Name) (body : Value → Scope → List Node × Scope) : List Node × Scope :=
  sc.cursorLoop (sc.value first).ty (.cell (sc.value first).cell) .ne (.value (sc.find last)) .index body

theorem read_forN (sc : Scope) (n : Term) (bind : Name) (b : Body) : (Stmt.forN n bind b).read sc =
    ((sc.count n).1 ++ ((sc.count n).2.2.countedLoop (sc.count n).2.1 bind b).1,
      ((sc.count n).2.2.countedLoop (sc.count n).2.1 bind b).2) := by
  rw [Stmt.read]
  rfl

theorem read_forRangePtr (sc : Scope) (first last bind : Name) (b : Body) :
    (Stmt.forRangePtr first last bind b).read sc = sc.rangeLoop first last (cursorBody bind b) := by
  rw [Stmt.read]
  rfl

theorem read_forRange (sc : Scope) (first last bind : Name) (b : Body) :
    (Stmt.forRange first last bind b).read sc = sc.rangeLoop first last (elementBody bind b) := by
  rw [Stmt.read]
  rfl

theorem numbers_count (sc : Scope) (n : Term) : Numbers sc ((sc.count n).1, (sc.count n).2.2) := by
  cases n with
  | name n => exact numbers_nil le_rfl
  | const x => exact ⟨size_le_grow sc [.i64], by simp [Scope.count, madeAll, Node.made]⟩

mutual

theorem numbers_read (s : Stmt) (sc : Scope) : Numbers sc (s.read sc) := by
  cases s with
  | arg | finalize | foreign | fault => exact numbers_nil le_rfl
  | args stem => exact numbers_nil (size_bindAll stem 0 _ sc).ge
  | const | diff => exact numbers_yield _ (by simp [madeAll, Node.made])
  | var bind v => exact numbers_yield bind (made_unary _ _ _)
  | binary op bind v x => exact numbers_yield bind (made_binary _ _ _ _)
  | unary op bind v => exact numbers_yield bind (made_unary _ _ _)
  | field => exact numbers_yield _ (by simp [readField, madeAll, Node.made])
  | convert bind v ty =>
    refine numbers_yield bind ?_
    simp only [conversion]
    split <;> simp [madeAll, Node.made]
  | store | assign | ret | leaveLoop | nextRound => exact ⟨le_rfl, by simp [Stmt.read, madeAll, Node.made]⟩
  | ifThen c yes =>
    have h := numbers_body yes sc
    refine ⟨h.size, fun u hu => h.made u ?_⟩
    simpa [Stmt.read, madeAll, Node.made] using hu
  | ifElse c yes no =>
    have h := (numbers_body yes sc).append (numbers_body no _)
    refine ⟨h.size, fun u hu => h.made u ?_⟩
    simpa [Stmt.read, madeAll, Node.made, madeAll_append] using hu
  | whileLoop test body =>
    have h := (numbers_test test sc).append (numbers_body body _)
    refine ⟨h.size, fun u hu => h.made u ?_⟩
    simpa [Stmt.read, madeAll, Node.made, madeAll_append] using hu
  | doWhile body test =>
    have h := (numbers_body body sc).append (numbers_test test _)
    refine ⟨h.size, fun u hu => h.made u ?_⟩
    simpa [Stmt.read, madeAll, Node.made, madeAll_append] using hu
  | forLoop init test step body =>
    have h := (numbers_body init sc).append
      ((numbers_test test _).append ((numbers_body body _).append (numbers_body step _)))
    refine ⟨h.size, fun u hu => h.made u ?_⟩
    simp only [Stmt.read, madeAll, Node.made, madeAll_append, List.mem_append] at hu ⊢
    tauto
  | forN n bind body =>
    have hloop : ∀ sc v, Numbers sc (Scope.countedLoop sc v bind body) := fun _ _ =>
      numbers_cursorLoop (numbers_cursorBody (numbers_body body) bind)
    rw [read_forN]
    exact (numbers_count sc n).append (hloop _ _)
  | forRange first last bind body =>
    rw [read_forRange]
    exact numbers_cursorLoop (numbers_elementBody (numbers_body body) bind)
  | forRangePtr first last bind body =>
    rw [read_forRangePtr]
    exact numbers_cursorLoop (numbers_cursorBody (numbers_body body) bind)

theorem numbers_readAll (ss : List Stmt) (sc : Scope) : Numbers sc (readAll ss sc) := by
  cases ss with
  | nil => exact numbers_nil le_rfl
  | cons s ss => exact (numbers_read s sc).append (numbers_readAll ss _)

theorem numbers_body (b : Body) (sc : Scope) : Numbers sc (b.read sc) := by
  cases b with
  | missing => exact numbers_nil le_rfl
  | stmts ss => exact numbers_readAll ss sc

theorem numbers_test (t : Test) (sc : Scope) : Numbers sc ((t.read sc).1, (t.read sc).2.2) := by
  cases t with
  | missing => exact numbers_nil le_rfl
  | stmts ss v => exact numbers_readAll ss sc

end

/-! ## Loops with a cursor -/

theorem advances_cycle {e : Nat} {goes : Word → Word → Bool} {succ : Word → Word} (he : e < sc.size)
    (hbound : bound.source ty = .cell e)
    (hgoes : ∀ x y m, (Compute.compare c ty.kind 0 1).value (pair x y) m = .ok (.ofBool (goes x y)))
    (hnext : ∀ out, ∃ op z, next.read ⟨sc.id, ty, some sc.size⟩ (.ofInt 1) out =
      ([.make out op sc.size (.word z)], [ty]) ∧ ∀ x m, op.value (pair x (.ofBits z)) m = .ok (succ x))
    (hbody : ∀ i sc, Numbers sc (body i sc)) (hi : sc.size ∉ assignedAll (sc.cycle ty c bound next body).body)
    (hassigned : e ∉ assignedAll (sc.cycle ty c bound next body).body) :
    (sc.cycle ty c bound next body).Advances sc.size e goes succ := by
  have hi1 : (sc.grow [ty]).newest = ⟨sc.id, ty, some sc.size⟩ := sc.newest_grow ty
  have h1 : (sc.grow [ty]).size = sc.size + 1 := size_grow sc [ty]
  have h2 : ((sc.grow [ty]).grow [.bool]).size = sc.size + 2 := by rw [size_grow, h1]; rfl
  have hnumbers := hbody (sc.grow [ty]).newest ((sc.grow [ty]).grow [.bool])
  refine ⟨fun cells m => ?_, fun cells m => ?_, fun cells m way cells' m' hrun => ⟨?_, ?_⟩⟩
  · have htest : (sc.cycle ty c bound next body).test =
        [.make (sc.size + 1) (.compare c ty.kind 0 1) sc.size (.cell e)] := by
      simp [Scope.cycle, BinaryOp.read, hi1, h1, hbound, Value.cell]
    have hcond : (sc.cycle ty c bound next body).condition = some (sc.size + 1) := by
      simp [Scope.cycle, Scope.newest_grow, h1, Value.cell]
    refine ⟨_, htest ▸ brings_make (hgoes (cells sc.size) (cells e) m), ?_, ?_, ?_⟩
    · exact Function.update_of_ne (by omega) _ _
    · exact Function.update_of_ne (by omega) _ _
    · rw [hcond, holds, Function.update_self]
      cases goes (cells sc.size) (cells e) <;> rfl
  · rw [hi1] at hnumbers
    have hsize := h2 ▸ hnumbers.size
    obtain ⟨op, z, hread, hop⟩ := hnext (body ⟨sc.id, ty, some sc.size⟩ ((sc.grow [ty]).grow [.bool])).2.size
    have hstep : (sc.cycle ty c bound next body).step =
        [.make (body ⟨sc.id, ty, some sc.size⟩ ((sc.grow [ty]).grow [.bool])).2.size op sc.size (.word z)] ++
          [.assign sc.size (.cell (body ⟨sc.id, ty, some sc.size⟩ ((sc.grow [ty]).grow [.bool])).2.size)] := by
      simp only [Scope.cycle, hi1, hread, Scope.newest_grow]
      rfl
    rw [hstep]
    refine ⟨_, (brings_make (hop (cells sc.size) m)).append (brings_assign _ _ _ _), ?_, ?_⟩
    · rw [Function.update_self]
      exact Function.update_self ..
    · rw [Function.update_of_ne (by omega), Function.update_of_ne (by omega)]
  · exact hrun.leaves (fun hmem => by have := hnumbers.made _ hmem; omega) hi
  · exact hrun.leaves (fun hmem => by have := hnumbers.made _ hmem; omega) hassigned

/-! ## Loops over numbers -/

/-- The loop over the numbers below a count. -/
def Scope.counting (sc : Scope) (count : Value) (bind : Name) (b : Body) : Cycle :=
  sc.cycle count.ty .lt (.value count) (.arith .add) (cursorBody bind b)

theorem countedLoop_fst (sc : Scope) (count : Value) (bind : Name) (b : Body) :
    (sc.countedLoop count bind b).1 =
      [.take sc.size ((Operand.ofInt 0).source count.ty)] ++ [(sc.counting count bind b).node true] :=
  rfl

theorem eq_int_of_kind {w : Width} {s : Bool} (h : ty.kind = .int w s) :
    ∃ bits, ty = .int bits s ∧ Width.ofBits? bits = some w := by
  cases ty with
  | int bits s' =>
    rw [Ty.kind] at h
    split at h
    · rename_i hw
      obtain ⟨rfl, rfl⟩ := Kind.int.inj h
      exact ⟨bits, rfl, hw⟩
    · cases h
  | _ => cases h

theorem eq_bits_of_ofBits? {bits : Int} {w : Width} (h : Width.ofBits? bits = some w) : bits = w.bits := by
  unfold Width.ofBits? at h
  split at h <;> cases h <;> rfl

theorem source_ofInt {w : Width} {s : Bool} (h : ty.kind = .int w s) (hn : n = 0 ∨ n = 1) :
    (Operand.ofInt n).source ty = .word (UInt64.ofInt n) := by
  obtain ⟨bits, rfl, hbits⟩ := eq_int_of_kind h
  obtain rfl := eq_bits_of_ofBits? hbits
  obtain rfl | rfl := hn <;> cases w <;> cases s <;> decide

/-- The word after another one. -/
def succWord (k : Kind) (x : Word) : Word :=
  .ofBits (k.norm (x.bits + 1))

variable {w : Width} {s : Bool} {count : Value} {bind : Name} {b : Body} {cells : Cells} {m : Memory}

/-- Counting from zero does not wrap before it comes to a number of the type. -/
theorem value_iterate (h : w.Range s n) (hk : (k : Int) ≤ n) :
    ((succWord (.int w s))^[k] (.ofBits 0)).value s = k := by
  induction k with
  | zero => cases s <;> rfl
  | succ k ih =>
    have hbits := Word.ofInt_value s ((succWord (.int w s))^[k] (.ofBits 0))
    rw [ih (by omega)] at hbits
    rw [Function.iterate_succ_apply', succWord, ← hbits, show UInt64.ofInt k + 1 = UInt64.ofInt (k + 1) by
      rw [UInt64.ofInt_add]; rfl, Word.value_norm]
    exact Width.wrap_of_range (h.between (.inl ⟨by omega, by exact_mod_cast hk⟩))

section

variable (hcount : count.cell < sc.size) (hkind : count.ty.kind = .int w s)
  (hi : sc.size ∉ assignedAll (sc.counting count bind b).body)
  (hassigned : count.cell ∉ assignedAll (sc.counting count bind b).body)
include hcount hkind hi hassigned

theorem advances_counting :
    (sc.counting count bind b).Advances sc.size count.cell (fun x y => decide (x.value s < y.value s))
      (succWord (.int w s)) := by
  refine advances_cycle hcount rfl (fun x y m => ?_) (fun out => ?_)
    (numbers_cursorBody (numbers_body b) bind) hi hassigned
  · show (Word.compare .lt count.ty.kind x y).map Word.ofBool = _
    rw [hkind, Word.compare_int rfl]
    rfl
  · refine ⟨.binary .add count.ty.kind 0 1, 1, ?_, fun x m => ?_⟩
    · rw [BinaryOp.read, source_ofInt hkind (.inr rfl)]
      rfl
    · rw [hkind]
      rfl

/-- The body is run for the numbers below the count, in order. -/
theorem counting_runs (hx : (cells count.cell).Normal (.int w s)) (hstart : cells sc.size = .ofBits 0)
    (hbody : (sc.counting count bind b).Completes cells m) :
    (sc.counting count bind b).Runs cells m ((cells count.cell).value s).toNat ∧
      ∀ k cells' m', (sc.counting count bind b).Lap cells m k cells' m' → (cells' sc.size).value s = k := by
  have hadvances := advances_counting hcount hkind hi hassigned
  have hrange := Word.range_value hx
  set n := (cells count.cell).value s with hn
  have hruns : (sc.counting count bind b).Runs cells m n.toNat := by
    refine hadvances.runs hbody (fun j hj => ?_) ?_
    · rw [hstart, value_iterate hrange (by omega), decide_eq_true_eq]
      omega
    · rw [hstart, decide_eq_false_iff_not, not_lt]
      obtain hneg | hpos := lt_or_ge n 0
      · rw [Int.toNat_of_nonpos hneg.le]
        have hzero : (Word.ofBits 0).value s = 0 := (Word.bits_eq_zero_iff s _).1 rfl
        exact hn ▸ hzero ▸ hneg.le
      · rw [value_iterate hrange (by omega)]
        omega
  refine ⟨hruns, fun k cells' m' hlap => ?_⟩
  have hk := (hruns.count k).1 ⟨cells', m', hlap⟩
  rw [(hadvances.lap hlap).1, hstart, value_iterate hrange (by omega)]

end

def Scope.countWord (sc : Scope) (n : Term) (cells : Cells) : Word :=
  ((sc.operand n).source .i64).value cells

theorem cell_value (sc : Scope) (n : Name) : (sc.value n).cell = ((sc.find n).map Value.cell).getD 0 := by
  rw [Scope.value]
  cases sc.find n <;> rfl

/-- What the variables hold when a loop over numbers is entered: its count was found, and its counter is
zero. -/
def Scope.entered (sc : Scope) (n : Term) (cells : Cells) : Cells :=
  match n with
  | .name _ => Function.update cells sc.size (.ofBits 0)
  | .const _ => Function.update (Function.update cells sc.size (sc.countWord n cells)) (sc.size + 1) (.ofBits 0)

/-- A constant count is taken as an integer of 64 bits. -/
theorem value_countWord_const (sc : Scope) (cells : Cells) {c : Int}
    (h : (constBits .i64 (.int t c)).isSome = true) :
    (sc.countWord (.const (.int t c)) cells).value true = c := by
  obtain ⟨bits, hbits⟩ := Option.isSome_iff_exists.1 h
  obtain ⟨hrange, rfl⟩ := (constBits_eq_some_iff (w := .w64)).1 hbits
  show (Word.ofBits ((Kind.int .w64 true).norm ((constBits .i64 (.int t c)).getD 0))).value true = c
  rw [hbits, Option.getD_some, Word.value_norm, Width.wrap_of_range hrange]

/-- A loop over numbers is entered with its count and with the number zero. -/
theorem enters_forN {n : Term} {cs : List Node} (hread : sc.count n = (cs, count, sc1))
    (hcount : count.cell < sc1.size) (hkind : count.ty.kind = .int w s) (bind : Name) (b : Body)
    (cells : Cells) (m : Memory) : (∀ r, Brings ((Stmt.forN n bind b).read sc).1 cells m r ↔
        Brings [(sc1.counting count bind b).node true] (sc.entered n cells) m r) ∧
      sc.entered n cells count.cell = sc.countWord n cells ∧ sc.entered n cells sc1.size = .ofBits 0 := by
  rw [read_forN, hread]
  dsimp only
  rw [countedLoop_fst, source_ofInt hkind (.inl rfl), ← List.append_assoc]
  cases n with
  | name n =>
    obtain ⟨rfl, rfl, rfl⟩ : [] = cs ∧ sc.value n = count ∧ sc = sc1 := by simpa [Scope.count] using hread
    refine ⟨fun r => (brings_take sc.size _ cells m).append_iff, ?_, Function.update_self ..⟩
    rw [Scope.entered, Function.update_of_ne hcount.ne, cell_value]
    rfl
  | const x =>
    obtain ⟨rfl, rfl, rfl⟩ : [.take sc.size ((Operand.const x).source .i64)] = cs ∧
        (sc.grow [.i64]).newest = count ∧ sc.grow [.i64] = sc1 := by simpa [Scope.count] using hread
    have hsize : (sc.grow [.i64]).size = sc.size + 1 := size_grow sc [.i64]
    rw [hsize, Scope.newest_grow] at hcount ⊢
    refine ⟨fun r => ((brings_take sc.size _ cells m).append (brings_take _ _ _ _)).append_iff, ?_,
      Function.update_self ..⟩
    rw [Scope.entered, Function.update_of_ne hcount.ne]
    exact Function.update_self ..

theorem readAll_append (pre ss : List Stmt) (sc : Scope) :
    (readAll (pre ++ ss) sc).1 = (readAll pre sc).1 ++ (readAll ss (readAll pre sc).2).1 := by
  induction pre generalizing sc with
  | nil => rfl
  | cons s pre ih => simp only [List.cons_append, readAll, ih, List.append_assoc]

/-- The code of a steady description does what a statement is read as in the scope where it stands, after
what is before it and before what is behind it. -/
def Carried (stmt : Stmt) (sc : Scope) : Prop :=
  ∀ code name sig pre post, FinishedFrom code name sig (pre ++ stmt :: post) →
    (readAll pre (.start ⟨0, name⟩ sig)).2 = sc → Does code sig
      ((readAll pre (.start ⟨0, name⟩ sig)).1 ++ ((stmt.read sc).1 ++ (readAll post (stmt.read sc).2).1))

theorem carried (stmt : Stmt) (sc : Scope) : Carried stmt sc := by
  rintro code name sig pre post h rfl
  have hdoes := h.does
  rwa [meaning, readAll_append] at hdoes

/-- Loops over numbers run their body once for each number below the count, in order: the `k`th time the body
is begun the counter is `k`, so it never wraps. The body may go on to the next round early, but it assigns to
neither the counter nor the count, and each execution of it completes. The code of a steady description does
what the structured program does, on both back ends, and so the loop where it stands. -/
theorem counted_loop_exact {sc sc₁ : Scope} {n : Term} {cs : List Node} {count : Value} {w : Width}
    {signed : Bool} (hread : sc.count n = (cs, count, sc₁)) (hcount : count.cell < sc₁.size)
    (hkind : count.ty.kind = .int w signed) (bind : Name) (b : Body)
    (hi : sc₁.size ∉ assignedAll (sc₁.counting count bind b).body)
    (hassigned : count.cell ∉ assignedAll (sc₁.counting count bind b).body) (cells : Cells) (m : Memory)
    (hx : (sc.countWord n cells).Normal (.int w signed)) :
    (∀ code name sig body, FinishedFrom code name sig body → Does code sig (meaning name sig body)) ∧
      Carried (.forN n bind b) sc ∧
      (∀ t c, n = .const (.int t c) → (Describe.constBits .i64 (.int t c)).isSome = true →
        (sc.countWord n cells).value true = c) ∧
      (∀ r, Brings ((Stmt.forN n bind b).read sc).1 cells m r ↔
        Brings [(sc₁.counting count bind b).node true] (sc.entered n cells) m r) ∧
      ((sc₁.counting count bind b).Completes (sc.entered n cells) m →
        (sc₁.counting count bind b).Runs (sc.entered n cells) m ((sc.countWord n cells).value signed).toNat ∧
          ∀ k cells' m', (sc₁.counting count bind b).Lap (sc.entered n cells) m k cells' m' →
            (cells' sc₁.size).value signed = k) := by
  obtain ⟨henters, hword, hstart⟩ := enters_forN hread hcount hkind bind b cells m
  refine ⟨fun code name sig body h => h.does, carried _ sc, ?_, henters, fun hcompletes => ?_⟩
  · rintro t c rfl hc
    exact value_countWord_const sc cells hc
  · rw [← hword] at hx ⊢
    exact counting_runs hcount hkind hi hassigned hx hstart hcompletes

/-- Count one up, but not at the number three. -/
def others : Body :=
  let word (n : Int) : Term := .const (.ofInt (.int (some .w64) true) n)
  .stmts [.binary (.compare .eq) "three" "i" (word 3), .ifThen "three" (.stmts [.nextRound]),
    .binary (.arith .add) "next" "sum" (word 1), .assign "sum" (.name "next")]

/-- Count the numbers below a byte, but not the number three. -/
def countOthers : List Stmt :=
  let word (n : Int) : Term := .const (.ofInt (.int (some .w64) true) n)
  [.arg "n" 0, .const "sum" .i64 (word 0), .forN (.name "n") "i" others, .ret (.name "sum")]

def countScope : Scope :=
  (readAll (countOthers.take 2) (.start ⟨0, "count"⟩ ⟨[.int 8 false], .i64⟩)).2

theorem counted_loop_bytes : (∃ code, FinishedFrom code "count" ⟨[.int 8 false], .i64⟩ countOthers ∧
      Does code ⟨[.int 8 false], .i64⟩ (meaning "count" ⟨[.int 8 false], .i64⟩ countOthers)) ∧
    (countScope.counting ⟨⟨0, "count"⟩, .int 8 false, some 0⟩ "i" others).Runs
      (countScope.entered (.name "n") fun _ => .ofBits 255) .empty 255 ∧
    ∀ k cells' m', (countScope.counting ⟨⟨0, "count"⟩, .int 8 false, some 0⟩ "i" others).Lap
      (countScope.entered (.name "n") fun _ => .ofBits 255) .empty k cells' m' → (cells' 2).value false = k := by
  obtain ⟨hdoes, -, -, -, hruns⟩ := @counted_loop_exact countScope countScope (.name "n") []
    ⟨⟨0, "count"⟩, .int 8 false, some 0⟩ .w8 false rfl (by decide) rfl "i" others (by decide) (by decide)
    (fun _ => .ofBits 255) .empty (fun _ => ⟨rfl, rfl⟩)
  refine ⟨?_, hruns fun k cells1 m1 _ => ?_⟩
  · obtain ⟨code, hfrom⟩ := @exists_finishedFrom { backend := "ssa" } "count" ⟨[.int 8 false], .i64⟩ countOthers
      (by decide +kernel) rfl (steadyAll_of_tested _ (by decide +kernel)) (by decide +kernel)
    exact ⟨code, hfrom, hdoes _ _ _ _ hfrom⟩
  · have hbody : (countScope.counting ⟨⟨0, "count"⟩, .int 8 false, some 0⟩ "i" others).body =
        [.make 4 (.compare .eq (.int .w8 false) 0 1) 2 (.word 3)] ++ [.choose 4 [.next] [],
          .make 5 (.binary .add (.int .w64 true) 0 1) 1 (.word 1), .assign 1 (.cell 5)] := rfl
    have hthree : Brings [.make 4 (.compare .eq (.int .w8 false) 0 1) 2 (.word 3)] cells1 m1
        (.go .on (Function.update cells1 4 (.ofBool (decide ((cells1 2).bits = 3)))) m1) :=
      brings_make rfl
    rw [hbody]
    by_cases h : (cells1 2).bits = 3
    · rw [decide_eq_true h] at hthree
      exact ⟨.next, Function.update cells1 4 (.ofBool true), m1, by simp, hthree.append ⟨0, by
        simp [Direct.execAll, Node.exec, Word.isTrue, Word.ofBool, Result.andThen]⟩⟩
    rw [decide_eq_false h] at hthree
    have hon : Brings [.choose 4 [.next] []] (Function.update cells1 4 (.ofBool false)) m1
        (.go .on (Function.update cells1 4 (.ofBool false)) m1) := ⟨0, by
      simp [Direct.execAll, Node.exec, Word.isTrue, Word.ofBool, Result.andThen]⟩
    exact ⟨.on, _, m1, by simp, hthree.append (hon.append ((brings_make rfl).append
      (brings_assign _ _ _ _)))⟩

/-! ## Loops over elements -/

/-- The place of an element in memory. -/
def elementAt (p : Word) (size : Int) (k : Nat) : Word :=
  { p with bits := p.bits + UInt64.ofInt (k * size) }

theorem rawAddr_elementAt (p : Word) (size : Int) (k : Nat) :
    (elementAt p size k).rawAddr = p.rawAddr + UInt64.ofInt (k * size) :=
  (UInt64.add_assoc p.base p.bits _).symm

theorem iterate_ptrAdd (p : Word) (size : Int) (k : Nat) :
    (fun x => Word.ptrAdd x (.ofBits 1) size)^[k] p = elementAt p size k := by
  induction k with
  | zero => simp [elementAt, show UInt64.ofInt 0 = 0 from rfl]
  | succ k ih =>
    rw [Function.iterate_succ_apply', ih, elementAt, elementAt, Word.ptrAdd]
    have hnext : UInt64.ofInt ((k + 1 : Nat) * size) = UInt64.ofInt (k * size) + UInt64.ofInt size := by
      rw [Nat.cast_add, Nat.cast_one, Int.add_mul, Int.one_mul, UInt64.ofInt_add]
    rw [hnext]
    simp [Word.ofBits, UInt64.add_assoc]

/-- Elements before the end have other addresses than the end. -/
theorem rawAddr_elementAt_ne {p q : Word} {size : Int} {n : Nat} (hsize : 0 < size) (hn : n * size < 2 ^ 64)
    (hq : q.rawAddr = p.rawAddr + UInt64.ofInt (n * size)) (hk : k < n) :
    (elementAt p size k).rawAddr ≠ q.rawAddr := by
  rw [rawAddr_elementAt, hq, Ne, UInt64.add_right_inj]
  intro heq
  have hlt : (k : Int) * size < n * size := Int.mul_lt_mul_of_pos_right (by exact_mod_cast hk) hsize
  have hmod : (k : Int) * size % 2 ^ 64 = n * size % 2 ^ 64 := by
    rw [← Word.toNat_ofInt, ← Word.toNat_ofInt, heq]
  rw [Int.emod_eq_of_lt (by positivity) (hlt.trans hn), Int.emod_eq_of_lt (by positivity) hn] at hmod
  exact hlt.ne hmod

/-- The loop over the pointers from one to another. -/
def Scope.ranging (sc : Scope) (first last : Name) (body : Value → Scope → List Node × Scope) : Cycle :=
  sc.cycle (sc.value first).ty .ne (.value (sc.find last)) .index body

section Ranging

variable {first last : Name} {body : Value → Scope → List Node × Scope} {t : Ty} {size : Int}

section

variable (hlast : (sc.value last).cell < sc.size) (hty : (sc.value first).ty = .ptr t)
  (hsize : t.size = .ok size)
include hlast hty hsize

theorem advances_ranging (hbody : ∀ i sc, Numbers sc (body i sc))
    (hi : sc.size ∉ assignedAll (sc.ranging first last body).body)
    (hassigned : (sc.value last).cell ∉ assignedAll (sc.ranging first last body).body) :
    (sc.ranging first last body).Advances sc.size (sc.value last).cell
      (fun x y => decide (x.rawAddr ≠ y.rawAddr)) (fun x => Word.ptrAdd x (.ofBits 1) size) := by
  refine advances_cycle hlast ?_ (fun x y m => ?_) (fun out => ?_) hbody hi hassigned
  · rw [cell_value]
    rfl
  · rw [hty]
    rfl
  · refine ⟨.ptrAdd (stride t) 0 1, 1, ?_, fun x m => ?_⟩
    · rw [BinaryOp.read, source_ofInt (w := .w64) (s := true) rfl (.inr rfl), hty]
      rfl
    · rw [stride_of_size hsize]
      rfl

/-- The body is run for the elements from the first to the last, in order. -/
theorem ranging_runs (hpos : 0 < size) (hbody : ∀ i sc, Numbers sc (body i sc))
    (hi : sc.size ∉ assignedAll (sc.ranging first last body).body)
    (hassigned : (sc.value last).cell ∉ assignedAll (sc.ranging first last body).body) {n : Nat}
    (hn : n * size < 2 ^ 64)
    (hend : (cells (sc.value last).cell).rawAddr = (cells sc.size).rawAddr + UInt64.ofInt (n * size))
    (hcompletes : (sc.ranging first last body).Completes cells m) :
    (sc.ranging first last body).Runs cells m n ∧
      ∀ k cells' m', (sc.ranging first last body).Lap cells m k cells' m' →
        cells' sc.size = elementAt (cells sc.size) size k := by
  have hadvances := advances_ranging hlast hty hsize hbody hi hassigned
  refine ⟨hadvances.runs hcompletes (fun j hj => ?_) ?_, fun k cells' m' hlap => ?_⟩
  · rw [iterate_ptrAdd, decide_eq_true_eq]
    exact rawAddr_elementAt_ne hpos hn hend hj
  · rw [iterate_ptrAdd, decide_eq_false_iff_not, not_not, rawAddr_elementAt, hend]
  · rw [(hadvances.lap hlap).1, iterate_ptrAdd]

end

/-- A loop over elements is entered with a cursor at the first one. -/
theorem enters_ranging (cells : Cells) (m : Memory) (r : Result) :
    Brings (sc.rangeLoop first last body).1 cells m r ↔ Brings [(sc.ranging first last body).node true]
        (Function.update cells sc.size (cells (sc.value first).cell)) m r := by
  rw [Scope.rangeLoop, cursorLoop_fst]
  exact (brings_take sc.size (.cell (sc.value first).cell) cells m).append_iff

end Ranging

/-- The body of a loop over elements of a type, after an element was loaded. -/
def Scope.elementPart (sc : Scope) (t : Ty) (bind : Name) (b : Body) : List Node :=
  let sc₁ := ((sc.grow [.ptr t]).grow [.bool]).grow [t]
  (b.read (sc₁.bind bind sc₁.newest)).1

/-- The element is loaded from where the cursor is before the body is begun. -/
theorem body_elements {t : Ty} (hty : (sc.value first).ty = .ptr t) :
    (sc.ranging first last (elementBody bind b)).body =
      [.make (sc.size + 2) (.load t.kind 0) sc.size (.cell sc.size)] ++ sc.elementPart t bind b := by
  have hsize : ((sc.grow [.ptr t]).grow [.bool]).size = sc.size + 2 := by
    rw [size_grow, size_grow]
    rfl
  rw [Scope.ranging, Scope.cycle, hty]
  dsimp only
  rw [Scope.newest_grow, elementBody, hsize]
  rfl

theorem loads_element {t : Ty} {way : Way} {cells' : Cells} {m' : Memory} (hty : (sc.value first).ty = .ptr t)
    (h : Brings (sc.ranging first last (elementBody bind b)).body cells m (.go way cells' m')) :
    ∃ x, m.load t.kind (cells sc.size) = .ok x ∧
      ∀ r, Brings (sc.ranging first last (elementBody bind b)).body cells m r ↔
        Brings (sc.elementPart t bind b) (Function.update cells (sc.size + 2) x) m r := by
  rw [body_elements hty] at h ⊢
  obtain ⟨x, hx⟩ := h.of_make
  exact ⟨x, hx, fun r => (brings_make hx).append_iff⟩

/-- The loop runs its body for so many elements from where its cursor is on, in order. -/
structure Visits (L : Cycle) (cursor : Nat) (cells : Cells) (m : Memory) (size : Int) (n : Nat) : Prop where
  runs : L.Runs cells m n
  places : ∀ k cells' m', L.Lap cells m k cells' m' → cells' cursor = elementAt (cells cursor) size k

/-- Loops over elements run their body once for each element from the first pointer on up to the last one, in
order. A loop over pointers gives it the place of the element, and a loop over elements what is found there
when the round is begun. The body assigns to neither the cursor nor the last pointer, but it may assign to the
first one, and each execution of it completes. The code of a steady description does what the structured
program does, on both back ends, and so the loop where it stands. -/
theorem range_loops_exact {sc : Scope} {first last : Name} {t : Ty} {size : Int} {n : Nat}
    (hty : (sc.value first).ty = .ptr t) (hlast : (sc.value last).cell < sc.size) (hsize : t.size = .ok size)
    (hpos : 0 < size) (hn : n * size < 2 ^ 64) (bind : Name) (b : Body) (cells cells₀ : Cells) (m : Memory)
    (hend : (cells (sc.value last).cell).rawAddr =
      (cells (sc.value first).cell).rawAddr + UInt64.ofInt (n * size))
    (hstart : cells₀ = Function.update cells sc.size (cells (sc.value first).cell)) :
    (∀ code name sig body, FinishedFrom code name sig body → Does code sig (meaning name sig body)) ∧
      (Carried (.forRangePtr first last bind b) sc ∧ Carried (.forRange first last bind b) sc) ∧
      (∀ r, Brings ((Stmt.forRangePtr first last bind b).read sc).1 cells m r ↔
        Brings [(sc.ranging first last (cursorBody bind b)).node true] cells₀ m r) ∧
      (∀ r, Brings ((Stmt.forRange first last bind b).read sc).1 cells m r ↔
        Brings [(sc.ranging first last (elementBody bind b)).node true] cells₀ m r) ∧
      (sc.size ∉ assignedAll (sc.ranging first last (cursorBody bind b)).body →
        (sc.value last).cell ∉ assignedAll (sc.ranging first last (cursorBody bind b)).body →
        (sc.ranging first last (cursorBody bind b)).Completes cells₀ m →
        Visits (sc.ranging first last (cursorBody bind b)) sc.size cells₀ m size n) ∧
      (sc.size ∉ assignedAll (sc.ranging first last (elementBody bind b)).body →
        (sc.value last).cell ∉ assignedAll (sc.ranging first last (elementBody bind b)).body →
        (sc.ranging first last (elementBody bind b)).Completes cells₀ m →
        Visits (sc.ranging first last (elementBody bind b)) sc.size cells₀ m size n ∧
          ∀ k cells' m', (sc.ranging first last (elementBody bind b)).Lap cells₀ m k cells' m' →
            ∃ x, m'.load t.kind (elementAt (cells₀ sc.size) size k) = .ok x ∧
              ∀ r, Brings (sc.ranging first last (elementBody bind b)).body cells' m' r ↔
                Brings (sc.elementPart t bind b) (Function.update cells' (sc.size + 2) x) m' r) := by
  subst hstart
  set cells₀ := Function.update cells sc.size (cells (sc.value first).cell) with hstart
  have hfirst0 : cells₀ sc.size = cells (sc.value first).cell := Function.update_self ..
  have hlast0 : cells₀ (sc.value last).cell = cells (sc.value last).cell := Function.update_of_ne hlast.ne _ _
  have hvisits : ∀ body, (∀ i sc, Numbers sc (body i sc)) →
      sc.size ∉ assignedAll (sc.ranging first last body).body →
      (sc.value last).cell ∉ assignedAll (sc.ranging first last body).body →
      (sc.ranging first last body).Completes cells₀ m →
      Visits (sc.ranging first last body) sc.size cells₀ m size n := by
    intro body hnumbers hi hassigned hcompletes
    obtain ⟨hruns, hplaces⟩ := ranging_runs hlast hty hsize hpos hnumbers hi hassigned hn
      (by rw [hlast0, hfirst0, hend]) hcompletes
    exact ⟨hruns, hplaces⟩
  refine ⟨fun code name sig body h => h.does, ⟨carried _ sc, carried _ sc⟩, fun r => ?_, fun r => ?_,
    hvisits _ (numbers_cursorBody (numbers_body b) bind), fun hi hassigned hcompletes => ?_⟩
  · rw [read_forRangePtr]
    exact enters_ranging cells m r
  · rw [read_forRange]
    exact enters_ranging cells m r
  · have hvisit := hvisits _ (numbers_elementBody (numbers_body b) bind) hi hassigned hcompletes
    refine ⟨hvisit, fun k cells' m' hlap => ?_⟩
    obtain ⟨way, cells2, m2, -, hrun⟩ := hcompletes k cells' m' hlap
    rw [← hvisit.places k cells' m' hlap]
    exact loads_element hty hrun

/-- Give up the pointer to the first element. -/
def forget : Body :=
  .stmts [.assign "first" (.name "last")]

/-- Go over the elements between two pointers twice. -/
def goOver : List Stmt :=
  [.arg "first" 0, .arg "last" 1, .forRangePtr "first" "last" "p" forget, .forRange "first" "last" "x" forget]

/-- The scope of the first loop. -/
def rangeScope : Scope :=
  (readAll (goOver.take 2) (.start ⟨0, "range"⟩ ⟨[.ptr .i64, .ptr .i64], .void⟩)).2

/-- Pointers to the begin and to the end of two integers of 64 bits. -/
def aroundTwo : Cells :=
  fun v => ⟨Memory.origin 0, if v = 0 then 0 else 16⟩

def twoZeros : Memory :=
  ⟨#[Array.replicate 16 0]⟩

theorem range_loops_twoZeros : (∃ code, FinishedFrom code "range" ⟨[.ptr .i64, .ptr .i64], .void⟩ goOver ∧
      Does code ⟨[.ptr .i64, .ptr .i64], .void⟩ (meaning "range" ⟨[.ptr .i64, .ptr .i64], .void⟩ goOver)) ∧
    Visits (rangeScope.ranging "first" "last" (cursorBody "p" forget)) 2
      (Function.update aroundTwo 2 (aroundTwo 0)) twoZeros 8 2 ∧
    Visits (rangeScope.ranging "first" "last" (elementBody "x" forget)) 2
      (Function.update aroundTwo 2 (aroundTwo 0)) twoZeros 8 2 := by
  obtain ⟨hdoes, -, -, -, -, helements⟩ := @range_loops_exact rangeScope "first" "last" .i64 8 2 rfl (by decide) rfl
    (by decide) (by decide) "x" forget aroundTwo _ twoZeros (by decide) rfl
  obtain ⟨-, -, -, -, hpointers, -⟩ := @range_loops_exact rangeScope "first" "last" .i64 8 2 rfl (by decide) rfl
    (by decide) (by decide) "p" forget aroundTwo _ twoZeros (by decide) rfl
  refine ⟨?_, hpointers (by decide) (by decide) fun k cells m _ =>
    ⟨.on, _, m, nofun, brings_assign 0 (.cell 1) cells m⟩,
    (helements (by decide) (by decide) fun k cells m hlap => ?_).1⟩
  · obtain ⟨code, hfrom⟩ := @exists_finishedFrom { backend := "ssa" } "range" ⟨[.ptr .i64, .ptr .i64], .void⟩ goOver
      (by decide +kernel) rfl (steadyAll_of_tested _ (by decide +kernel)) (by decide +kernel)
    exact ⟨code, hfrom, hdoes _ _ _ _ hfrom⟩
  · -- Nothing is stored, so the elements are there in each round.
    have hadvances : (rangeScope.ranging "first" "last" (elementBody "x" forget)).Advances 2 1
        (fun x y => decide (x.rawAddr ≠ y.rawAddr)) (fun x => Word.ptrAdd x (.ofBits 1) 8) :=
      advances_ranging (by decide) rfl rfl (numbers_elementBody (numbers_body forget) "x") (by decide) (by decide)
    have hends : k < 2 := hadvances.lt_of_lap (by decide) hlap
    have hplace := (hadvances.lap hlap).1
    obtain rfl : m = twoZeros := hadvances.memory_eq (fun cells m way cells' m' hrun => by
      obtain ⟨x, -, hbrings⟩ := loads_element rfl hrun
      cases ((hbrings _).1 hrun).unique (brings_assign _ _ _ _)
      rfl) hlap
    obtain ⟨x, hx⟩ : ∃ x, twoZeros.load (.int .w64 true) (cells 2) = .ok x := by
      rw [hplace, iterate_ptrAdd]
      obtain rfl | rfl : k = 0 ∨ k = 1 := by omega
      · exact ⟨.ofBits 0, by decide +kernel⟩
      · exact ⟨.ofBits 0, by decide +kernel⟩
    have hload : Brings [.make 4 (.load (.int .w64 true) 0) 2 (.cell 2)] cells twoZeros _ := brings_make hx
    exact ⟨.on, _, twoZeros, nofun, hload.append (brings_assign 0 (.cell 1) _ _)⟩

end Codesmith.Script
