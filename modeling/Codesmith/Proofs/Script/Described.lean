import Codesmith.Proofs.Script.Constructs

/-!
# Scripts as they are read

A script that describes a function without a rejection adds to its sketch the statements that it is read as.
The proof follows the statements of the script: operations are read one by one, and constructs by their
parts. `Cut` relates a script to those that stop at some point of it, within any of its constructs.
-/

namespace Codesmith.Script

open Gen (Sheet)
open Direct (Node Source SteadyAll)
open Describe

variable {α β : Type} {sc sc' sc1 sc2 sc3 : Scope} {s s' : Sketch} {w w' : Workspace Env}
  {nodes : List Node} {position : Position} {n : Name} {v : Value}
variable {x : Run Unit} {C : Set (Run Unit)} {a : α} {b : β} {p : Option (Run Unit)} {c : Cond}
  {bound : Operand} {ty : Ty} {first : Source} {body : Value → Scope → List Node × Scope} {i : Value}
  {stmt : String}

/-! ## Names and the trace -/

/-- A description that changes names only. -/
def Renames (x : Run Unit) (sc sc' : Scope) : Prop :=
  ∀ w s, sc.At w s → ∃ w', x w = (.ok (), w') ∧ sc'.At w' s

theorem Renames.bind {f : Unit → Run Unit} (hx : Renames x sc sc1) (hf : Renames (f ()) sc1 sc2) :
    Renames (x >>= f) sc sc2 := by
  intro w s hat
  obtain ⟨w1, hw1, hat1⟩ := hx w s hat
  obtain ⟨w', hw', hat'⟩ := hf w1 s hat1
  exact ⟨w', by rw [bind_run, hw1]; exact hw', hat'⟩

theorem renames_bindName (hv : sc.Has v) : Renames (bindName n v) sc (sc.bind n v) := by
  intro w s hat
  refine ⟨_, rfl, ⟨hat.id, hat.sig, hat.types⟩, hat.only, ?_, hat.valid.bind hv⟩
  show (n, v) :: w.own.names.filter _ = _
  rw [hat.named]
  rfl

theorem renames_bindAll (stem : Name) {vs : List Value} (hvs : ∀ v ∈ vs, sc.Has v) (i : Nat) :
    Renames (bindAll stem i vs) sc (sc.bindAll stem i vs) := by
  induction vs generalizing sc i with
  | nil => exact fun w s hat => ⟨w, rfl, hat⟩
  | cons v vs ih =>
    have hrest : ∀ u ∈ vs, (sc.bind (stem ++ toString i) v).Has u := fun u hu =>
      hvs u (List.mem_cons_of_mem v hu)
    exact (renames_bindName (hvs v List.mem_cons_self)).bind (ih hrest (i + 1))

theorem renames_record (stmt : String) (v : Option Value) : Renames (record stmt v) sc sc :=
  fun _ _ hat => ⟨_, rfl, ⟨hat.id, hat.sig, hat.types⟩, hat.only, hat.named, hat.valid⟩

theorem renames_recordConstruct (stmt : String) : Renames (recordConstruct stmt) sc sc :=
  (renames_record stmt none).bind fun _ _ hat => ⟨_, rfl, ⟨hat.id, hat.sig, hat.types⟩, hat.only, hat.named, hat.valid⟩

theorem renames_yields (stmt : String) (n : Name) (hv : sc.Has v) : Renames (yields stmt n v) sc (sc.bind n v) :=
  (renames_bindName hv).bind (renames_record stmt (some v))

theorem Renames.reads {r : Run Unit} (hx : Renames x sc sc1) (hf : Reads r C sc1 nodes sc' ()) :
    Reads (x >>= fun _ => r) {c | ∃ y ∈ C, c = x >>= fun _ => y} sc nodes sc' () := by
  intro w s A u w' hat hd hr hsteady hrun hw'
  obtain ⟨w1, hw1, hat1⟩ := hx w s hat
  rw [bind_run, hw1] at hrun
  obtain ⟨-, s', A', hat', hdraws, hstops⟩ := hf w1 s A u w' hat1 hd hr hsteady hrun hw'
  refine ⟨rfl, s', A', hat', hdraws, ?_⟩
  rintro c ⟨y, hy, rfl⟩
  exact (hstops y hy).after hw1

/-- Names are changed after a description. -/
theorem Reads.renames {x : Run α} {f : α → Run Unit} [∀ a, StickyRun (f a)] {C : Set (Run α)}
    (hx : Reads x C sc nodes sc1 a) (hf : sc1.Valid → Renames (f a) sc1 sc') :
    Reads (x >>= f) {c | ∃ y ∈ C, ∃ g, c = y >>= g} sc nodes sc' () := by
  intro w s A u w' hat hd hr hsteady hrun hw'
  obtain ⟨a', w1, hrun1, hw1, hrun⟩ := bind_accepted hrun hw'
  obtain ⟨rfl, s', A', hat1, hdraws, hstops⟩ := hx w s A a' w1 hat hd hr hsteady hrun1 hw1
  obtain ⟨w2, hw2, hat'⟩ := hf hat1.valid w1 s' hat1
  cases hw2.symm.trans hrun
  refine ⟨rfl, s', A', hat', hdraws, ?_⟩
  rintro c ⟨y, hy, g, rfl⟩
  exact (hstops y hy).bind g

/-- The description goes on with the value of a name. -/
theorem reads_lookup {f : Option Value → Run β} {C : Set (Run β)}
    (h : (∀ u, sc.find n = some u → sc.Has u) → Reads (f (sc.find n)) C sc nodes sc' b) :
    Reads (lookup n >>= f) {c | ∃ g, g (sc.find n) ∈ C ∧ c = lookup n >>= g} sc nodes sc' b := by
  intro w s A u w' hat hd hr hsteady hrun hw'
  rw [bind_run, hat.find] at hrun
  obtain ⟨hu, s', A', hat', hdraws, hstops⟩ :=
    h (fun u hu => hat.valid.find hu) w s A u w' hat hd hr hsteady hrun hw'
  refine ⟨hu, s', A', hat', hdraws, ?_⟩
  rintro c ⟨g, hg, rfl⟩
  exact (hstops _ hg).after (hat.find n)

theorem reads_term {x : Term} {f : Operand → Run β} {C : Set (Run β)}
    (h : sc.HasOperand (sc.operand x) → Reads (f (sc.operand x)) C sc nodes sc' b) :
    Reads (term x >>= f) {c | ∃ g, g (sc.operand x) ∈ C ∧ c = term x >>= g} sc nodes sc' b := by
  intro w s A u w' hat hd hr hsteady hrun hw'
  have hterm : term x w = (.ok (sc.operand x), w) := by
    cases x with
    | name n => rw [term, bind_run, hat.find]; rfl
    | const c => rfl
  have hx : sc.HasOperand (sc.operand x) := by
    rintro u hu
    cases x with
    | name n => exact hat.valid.find (Operand.value.inj hu)
    | const c => cases hu
  rw [bind_run, hterm] at hrun
  obtain ⟨hu, s', A', hat', hdraws, hstops⟩ := h hx w s A u w' hat hd hr hsteady hrun hw'
  refine ⟨hu, s', A', hat', hdraws, ?_⟩
  rintro c ⟨g, hg, rfl⟩
  exact (hstops _ hg).after hterm

/-- The description goes on with the value of a name, which has to be there. -/
theorem reads_receiver {f : Value → Run β} {C : Set (Run β)}
    (h : sc.Valid → sc.Has (sc.value n) → Reads (f (sc.value n)) C sc nodes sc' b) :
    Reads (receiver n >>= f) ∅ sc nodes sc' b := by
  intro w s A u w' hat hd hr hsteady hrun hw'
  cases hfind : sc.find n with
  | none =>
    rw [receiver, bind_run, bind_run, hat.find, hfind] at hrun
    cases hrun
  | some v =>
    have hvalue : sc.value n = v := by rw [Scope.value, hfind]; rfl
    have hv : sc.Has v := hat.valid.find hfind
    rw [bind_run, receiver, bind_run, hat.find, hfind] at hrun
    rw [hvalue] at h
    obtain ⟨hu, s', A', hat', hdraws, -⟩ := h hat.valid hv w s A u w' hat hd hr hsteady hrun hw'
    exact ⟨hu, s', A', hat', hdraws, nofun⟩

theorem Scope.Valid.on (h : sc.Valid) (hv : sc.Has v) (e : Edit α) : (on v e : Run α) = here e := by
  obtain ⟨t, -, hv⟩ := hv
  rw [Describe.on, here, hv, h.first]

/-! ## Loops over numbers and elements -/

theorem reads_map {x : Run α} (h : Reads x ∅ sc nodes sc' a) (f : α → β) :
    Reads (f <$> x) ∅ sc nodes sc' (f a) := by
  intro w s A b w' hat hd hr hsteady hrun hw'
  rw [map_eq_pure_bind] at hrun
  obtain ⟨a', w1, hrun1, hw1, hrun⟩ := bind_accepted hrun hw'
  cases hrun
  obtain ⟨rfl, s', A', hat', hdraws, -⟩ := h w s A a' w' hat hd hr hsteady hrun1 hw1
  exact ⟨rfl, s', A', hat', hdraws, nofun⟩

/-- The body of a loop is given a value under a name. -/
theorem PartReads.each (h : PartReads p C (sc.bind n v) nodes sc') (hv : sc.Has v) :
    Reads (applyTo (eachPart n p) v) {c | ∃ r ∈ C, c = applyTo (eachPart n (some r)) v} sc nodes sc' () := by
  cases p with
  | none =>
    intro w s A u w' _ _ _ _ hrun
    cases hrun
  | some r =>
    have hreads := (renames_bindName hv).reads ((renames_record "each" (some v)).reads h)
    intro w s
    refine (hreads w s).mono ?_
    rintro _ ⟨q, hq, rfl⟩
    exact ⟨_, ⟨q, hq, rfl⟩, rfl⟩

variable {each : Option (Value → Run Unit)}

/-- A loop over a variable that is advanced between rounds. -/
theorem reads_cursorLoop {name : String} {init : Edit Value} {next : Value → Edit Unit} {op : BinaryOp}
    [StickyRun (here init)] [∀ v, StickyRun (here (next v))]
    [∀ v, StickyRun (applyTo each v)] (hc : c.valid = true) (hbound : sc.HasOperand bound)
    (hi : i = (sc.grow [ty]).newest)
    (hinit : ∀ A x s', sc.Fits s.inner → Drawn s.inner A → AllReady s.inner A →
      init s.inner = .ok (x, s') → s'.error = none →
        ∃ A', Makes [.take s.vars.size first] s.inner A s' A' x ty s.vars.size)
    (hbody : ∀ sc2 : Scope, sc2.Has i → (body i sc2).2.Has i ∧
      Reads (applyTo each i) C sc2 (body i sc2).1 (body i sc2).2 ())
    (hnext : ∀ sc3 : Scope, sc3.Has i → Computes (next i) sc3 ((op.read i (.ofInt 1) sc3.size).1 ++
      [.assign i.cell (.cell (sc3.grow (op.read i (.ofInt 1) sc3.size).2).newest.cell)])
        (op.read i (.ofInt 1) sc3.size).2 ()) :
    ReadsFrom w s (loop name (here init) (some fun i => some <$> here (compare c i bound position))
        (some fun i => here (next i)) (some (applyTo each)) position)
      {r | ∃ q : Value → Run Unit, q i ∈ C ∧
        r = loop name (here init) (some fun i => some <$> here (compare c i bound position))
          (some fun i => here (next i)) (some q) position} sc
      (sc.cursorLoop ty first c bound op body).1 (sc.cursorLoop ty first c bound op body).2 () := by
  subst hi
  have hi : (sc.grow [ty]).Has (sc.grow [ty]).newest := sc.has_newest_grow ty
  have hcompare : Computes (compare c (sc.grow [ty]).newest bound position) (sc.grow [ty])
      ((BinaryOp.compare c).read (sc.grow [ty]).newest bound (sc.grow [ty]).size).1 [.bool]
      ((sc.grow [ty]).grow [.bool]).newest :=
    computes_one fun _ _ _ _ hs hd hr h herr => hs.size ▸
      compare_ok herr hd hr (hs.refers hi) (hs.refersOperand fun v hv => (hbound v hv).grow _) hc h
  have htest : TestReads (some (some <$> here (compare c (sc.grow [ty]).newest bound position))) ∅ (sc.grow [ty])
      ((BinaryOp.compare c).read (sc.grow [ty]).newest bound (sc.grow [ty]).size).1
      (some ((sc.grow [ty]).grow [.bool]).newest.cell) ((sc.grow [ty]).grow [.bool]) :=
    ⟨_, reads_map (reads_here hcompare) some, rfl, fun _ u hu =>
      Option.some.inj hu ▸ (sc.grow [ty]).has_newest_grow .bool⟩
  obtain ⟨hkeep, hreads⟩ := hbody ((sc.grow [ty]).grow [.bool]) (hi.grow _)
  have hstart : ReadsFrom (put w s.inner) s.inner (here init) ∅ sc [.take sc.size first] (sc.grow [ty])
      (sc.grow [ty]).newest := by
    intro A x w' hat hd hr _ hrun hw'
    obtain ⟨s', hs', herr, rfl⟩ := here_accepted hat hrun hw'
    obtain ⟨A', hA'⟩ := hinit A x s' hat.toFits hd hr hs' herr
    obtain ⟨rfl, hfits⟩ := makes_fits hA' hat.toFits rfl
    have hsize : s.vars.size = sc.size := hat.size
    exact ⟨rfl, s', A', hat.put hfits, hsize ▸ hA'.toDraws, nofun⟩
  have hloop := reads_loop position name (some fun i => some <$> here (compare c i bound position))
    (some fun i => here (next i)) (some (applyTo each)) hstart htest hreads (reads_here (hnext _ hkeep))
  refine hloop.mono ?_
  rintro _ ⟨q, hq, rfl⟩
  exact .body q hq

theorem reads_forN {x : Operand} {cs : List Node} {made : List Ty}
    {count : Value} [∀ v, StickyRun (applyTo each v)]
    (hcount : Computes (countOf x position) sc cs made (some count)) (hsc : sc.grow made = sc1)
    (hhas : sc1.Has count) (hi : i = (sc1.grow [count.ty]).newest)
    (hbody : ∀ sc2 : Scope, sc2.Has i → (body i sc2).2.Has i ∧
      Reads (applyTo each i) C sc2 (body i sc2).1 (body i sc2).2 ()) :
    Reads (forN x each position) {r | ∃ each', applyTo each' i ∈ C ∧ r = forN x each' position} sc
      (cs ++ (sc1.cursorLoop count.ty ((Operand.ofInt 0).source count.ty) .lt (.value count) (.arith .add) body).1)
      (sc1.cursorLoop count.ty ((Operand.ofInt 0).source count.ty) .lt (.value count) (.arith .add) body).2 () := by
  have hzero : ∀ s A y s', sc1.Fits s → Drawn s A → AllReady s A →
      (do attempt (← invalid count.ty) (constant "for-n" count.ty (.ofInt 0) position) : Edit Value) s = .ok (y, s') →
        s'.error = none →
          ∃ A', Makes [.take s.vars.size ((Operand.ofInt 0).source count.ty)] s A s' A' y count.ty s.vars.size := by
    intro s A y s' hs hd hr h herr
    obtain ⟨z, hz, hcz⟩ := hs.refers hhas
    have hty : count.ty = z.ty := by rw [hcz]
    exact constant_ok hd hr (hty ▸ hd.kind hz) (attempt_invalid_ok h herr)
  have hadd : ∀ sc3 : Scope, sc3.Has i → Computes (arith .add i (.ofInt 1) position) sc3
      ((BinaryOp.arith .add).read i (.ofInt 1) sc3.size).1 [i.ty] (sc3.grow [i.ty]).newest := fun sc3 hv =>
    computes_binary (by decide : BinaryOp.arith .add ∈ BinaryOp.all) hv (hasOperand_const sc3 _)
  have hbound : sc1.HasOperand (.value count) := fun v hv => by
    cases hv
    exact hhas
  have hstart := reads_here hcount
  rw [hsc] at hstart
  intro w s
  refine ((hstart w s).bind fun w s => reads_cursorLoop rfl hbound hi (hzero s.inner) hbody
    fun sc3 hv => computes_advance (hadd sc3 hv) hv (sc3.has_newest_grow _)).mono ?_
  rintro _ ⟨each', hq, rfl⟩
  exact .inr ⟨_, ⟨applyTo each', hq, rfl⟩, rfl⟩

instance (f : Value → Run Unit) [h : ∀ v, StickyRun (f v)] (v : Value) :
    StickyRun (applyTo (some f) v) :=
  h v

instance (t : Ty) (p : Value) : StickyRun (here (nextPtr t p position)) := by
  have hkeeps : RunKeeps ⟨[], .void⟩ (here (nextPtr t p position)) False fun _ => False := by
    refine runKeeps_here ((leads_lift t.size).bind fun size => ?_)
    refine Keeps.bind (leads_get.bind fun s => (tame_invalid p.ty).bind fun x =>
      keeps_attempt (grants_ptrAdd False.elim _ _ _ _ _ _) id) fun x => ?_
    exact (tame_assign p _ position).frame False
  exact ⟨hkeeps.sticky⟩

def rangeLoop (each : Option (Value → Run Unit)) (position : Position) : Option (Value × Value × Ty) → Run Unit
  | none => return ()
  | some (first, last, t) =>
    loop "for-range" (here (get >>= fun s => newVar first.ty (refNow first s) position))
      (some fun p => some <$> here (compare .ne p (.value last) position))
      (some fun p => here (nextPtr t p position)) (some (applyTo each)) position

theorem forRangePtr_eq (first last : Option Value) (each : Option (Value → Run Unit)) :
    forRangePtr first last each position = here (rangeOf first last position) >>= rangeLoop each position := by
  unfold forRangePtr
  refine congrArg _ (funext fun r => ?_)
  rcases r with _ | ⟨first, last, t⟩ <;> rfl

instance (each : Option (Value → Run Unit)) [∀ v, StickyRun (applyTo each v)]
    (r : Option (Value × Value × Ty)) : StickyRun (rangeLoop each position r) := by
  rcases r with _ | ⟨first, last, t⟩ <;> unfold rangeLoop <;> infer_instance

theorem reads_forRangePtr {first last : Option Value} {f : Value}
    (body : Value → Scope → List Node × Scope) [∀ v, StickyRun (applyTo each v)]
    (hfirst : ∀ u, first = some u → sc.Has u) (hlast : ∀ u, last = some u → sc.Has u)
    (hf : f = first.getD ⟨sc.id, .void, none⟩) (hi : i = (sc.grow [f.ty]).newest)
    (hbody : ∀ sc2 : Scope, sc2.Has i → (body i sc2).2.Has i ∧
      Reads (applyTo each i) C sc2 (body i sc2).1 (body i sc2).2 ()) :
    Reads (forRangePtr first last each position) {r | ∃ each', applyTo each' i ∈ C ∧
        r = forRangePtr first last each' position} sc
      (sc.cursorLoop f.ty (.cell f.cell) .ne (.value last) .index body).1
      (sc.cursorLoop f.ty (.cell f.cell) .ne (.value last) .index body).2 () := by
  intro w s A u w' hat hd hr hsteady hrun hw'
  rw [forRangePtr_eq] at hrun
  obtain ⟨r, w1, hrange, hw1, hrun⟩ := bind_accepted hrun hw'
  obtain ⟨s1, hrange', herr, rfl⟩ := here_accepted hat hrange hw1
  obtain ⟨rfl, f', l, t, y, rfl, rfl, rfl, hptr, hy⟩ := rangeOf_ok hat.toFits hfirst hlast hrange' herr
  obtain rfl : f = f' := hf
  have hput : put w s1 = w := by rw [put, ← hat.only]
  rw [hput] at hrun hrange
  have hfhas := hfirst f rfl
  have hity : i.ty = .ptr t := by rw [hi, Scope.newest_grow, hptr]
  have hloop : ReadsFrom w s1 (rangeLoop each position (some (f, l, t))) _ sc _ _ () :=
    reads_cursorLoop rfl (fun v hv => hlast v (Operand.value.inj hv)) hi
      (fun A x s' _ hd hr h _ => rangeStart_ok (s := s1.inner) hfhas ⟨hy.var, hy.ty, hy.inScope⟩ hd hr h) hbody
      fun sc3 hv => computes_nextPtr hv hity
  obtain ⟨-, s', A', hat', hdraws, hstops⟩ := hloop A u w' hat hd hr hsteady hrun hw'
  refine ⟨rfl, s', A', hat', hdraws, ?_⟩
  rintro _ ⟨each', hq, rfl⟩
  rw [forRangePtr_eq]
  exact (hstops _ ⟨applyTo each', hq, rfl⟩).after hrange

/-- The body of a loop is given what a pointer points to. -/
theorem reads_loaded [∀ v, StickyRun (applyTo each v)] {op : String}
    (hv : sc.Has v)
    (hbody : Reads (applyTo each (sc.grow [pointee v.ty]).newest) C (sc.grow [pointee v.ty]) nodes sc' ()) :
    Reads (applyTo (some fun p => do applyTo each (← here (loadAs op p position))) v)
      {c | ∃ each', applyTo each' (sc.grow [pointee v.ty]).newest ∈ C ∧
        c = applyTo (some fun p => do applyTo each' (← here (loadAs op p position))) v} sc
      ((UnaryOp.load.read v sc.size).1 ++ nodes) sc' () := by
  intro w s
  refine ((reads_here (computes_load hv) w s).bind hbody).mono ?_
  rintro _ ⟨each', hq, rfl⟩
  exact .inr ⟨applyTo each', hq, rfl⟩

/-! ## Reading makes variables -/

/-- The second scope has the variables of the first, and maybe more. -/
structure Scope.Precedes (sc sc' : Scope) : Prop where
  id : sc'.id = sc.id
  types : sc.types <+: sc'.types

theorem Scope.Has.mono (h : sc.Has v) (hsc : sc.Precedes sc') : sc'.Has v := by
  obtain ⟨t, ht, hv⟩ := h
  obtain ⟨types, htypes⟩ := hsc.types
  refine ⟨t, ?_, hsc.id ▸ hv⟩
  rw [← htypes]
  exact List.getElem?_append_left (List.getElem?_eq_some_iff.1 ht).1 ▸ ht

theorem Scope.Precedes.refl (sc : Scope) : sc.Precedes sc :=
  ⟨rfl, List.prefix_rfl⟩

theorem Scope.Precedes.trans (h : sc.Precedes sc1) (h' : sc1.Precedes sc2) : sc.Precedes sc2 :=
  ⟨h'.id.trans h.id, h.types.trans h'.types⟩

theorem Scope.precedes_grow (sc : Scope) (types : List Ty) : sc.Precedes (sc.grow types) :=
  ⟨rfl, List.prefix_append _ _⟩

theorem Scope.precedes_bind (sc : Scope) (n : Name) (v : Value) : sc.Precedes (sc.bind n v) :=
  ⟨rfl, List.prefix_rfl⟩

theorem Scope.precedes_bindAll (sc : Scope) (stem : Name) (i : Nat) (vs : List Value) :
    sc.Precedes (sc.bindAll stem i vs) := by
  induction vs generalizing sc i with
  | nil => exact .refl sc
  | cons v vs ih => exact (sc.precedes_bind _ v).trans (ih _ (i + 1))

theorem Scope.precedes_yield (sc : Scope) (n : Name) (made : List Node × List Ty) :
    sc.Precedes (sc.yield n made).2 :=
  (sc.precedes_grow made.2).trans (Scope.precedes_bind _ n _)

theorem Scope.precedes_cursorLoop {next : BinaryOp} (hbody : ∀ v (sc : Scope), sc.Precedes (body v sc).2) :
    sc.Precedes (sc.cursorLoop ty first c bound next body).2 :=
  (((sc.precedes_grow _).trans (Scope.precedes_grow _ _)).trans (hbody _ _)).trans (Scope.precedes_grow _ _)

theorem Stmt.read_forN (x : Term) (bind : Name) (body : Body) (sc : Scope) : (Stmt.forN x bind body).read sc =
    let count := sc.count x
    let loop := count.2.2.cursorLoop count.2.1.ty ((Operand.ofInt 0).source count.2.1.ty) .lt (.value count.2.1)
      (.arith .add) fun i sc => body.read (sc.bind bind i)
    (count.1 ++ loop.1, loop.2) :=
  rfl

mutual

theorem Stmt.precedes_read (s : Stmt) (sc : Scope) : sc.Precedes (s.read sc).2 := by
  cases s with
  | arg bind n => exact sc.precedes_bind _ _
  | args stem => exact sc.precedes_bindAll _ _ _
  | const bind ty x => exact sc.precedes_yield _ _
  | var bind v => exact sc.precedes_yield _ _
  | binary op bind v x => exact sc.precedes_yield _ _
  | unary op bind v => exact sc.precedes_yield _ _
  | convert bind v ty => exact sc.precedes_yield _ _
  | field bind v field => exact sc.precedes_yield _ _
  | diff bind v q => exact sc.precedes_yield _ _
  | ifThen c yes => exact yes.precedes_read sc
  | ifElse c yes no => exact (yes.precedes_read sc).trans (no.precedes_read _)
  | whileLoop test body => exact (test.precedes_read sc).trans (body.precedes_read _)
  | doWhile body test => exact (body.precedes_read sc).trans (test.precedes_read _)
  | forLoop init test step body =>
    exact (((init.precedes_read sc).trans (test.precedes_read _)).trans (body.precedes_read _)).trans
      (step.precedes_read _)
  | forN x bind body =>
    have hbody : ∀ v (sc : Scope), sc.Precedes (body.read (sc.bind bind v)).2 := fun v sc =>
      (sc.precedes_bind bind v).trans (body.precedes_read _)
    rw [Stmt.read_forN]
    cases x with
    | name n =>
      dsimp only [Scope.count]
      exact Scope.precedes_cursorLoop hbody
    | const c =>
      dsimp only [Scope.count]
      exact (sc.precedes_grow _).trans (Scope.precedes_cursorLoop hbody)
  | forRange first last bind body =>
    exact Scope.precedes_cursorLoop fun v sc =>
      ((sc.precedes_grow _).trans (Scope.precedes_bind _ bind _)).trans (body.precedes_read _)
  | forRangePtr first last bind body =>
    exact Scope.precedes_cursorLoop fun v sc => (sc.precedes_bind bind v).trans (body.precedes_read _)
  | _ => exact .refl sc

theorem precedes_readAll (ss : List Stmt) (sc : Scope) : sc.Precedes (readAll ss sc).2 := by
  cases ss with
  | nil => exact .refl sc
  | cons s ss => exact (s.precedes_read sc).trans (precedes_readAll ss _)

theorem Body.precedes_read (b : Body) (sc : Scope) : sc.Precedes (b.read sc).2 := by
  cases b with
  | missing => exact .refl sc
  | stmts ss => exact precedes_readAll ss sc

theorem Test.precedes_read (t : Test) (sc : Scope) : sc.Precedes (t.read sc).2.2 := by
  cases t with
  | missing => exact .refl sc
  | stmts ss v => exact precedes_readAll ss sc

end

/-! ## Scripts that stop -/

mutual

/-- The second statement stops at a point within the first. -/
inductive Stmt.Cut : Stmt → Stmt → Prop
  | ifThen {c : Name} {yes yes' : Body} : Body.Cut yes yes' → Stmt.Cut (.ifThen c yes) (.ifThen c yes')
  | ifElseYes {c : Name} {yes yes' no : Body} : Body.Cut yes yes' → Stmt.Cut (.ifElse c yes no) (.ifElse c yes' no)
  | ifElseNo {c : Name} {yes no no' : Body} : Body.Cut no no' → Stmt.Cut (.ifElse c yes no) (.ifElse c yes no')
  | whileTest {test test' : Test} {body : Body} :
    Test.Cut test test' → Stmt.Cut (.whileLoop test body) (.whileLoop test' body)
  | whileBody {test : Test} {body body' : Body} :
    Body.Cut body body' → Stmt.Cut (.whileLoop test body) (.whileLoop test body')
  | doBody {body body' : Body} {test : Test} : Body.Cut body body' → Stmt.Cut (.doWhile body test) (.doWhile body' test)
  | doTest {body : Body} {test test' : Test} : Test.Cut test test' → Stmt.Cut (.doWhile body test) (.doWhile body test')
  | forInit {init init' : Body} {test : Test} {step body : Body} :
    Body.Cut init init' → Stmt.Cut (.forLoop init test step body) (.forLoop init' test step body)
  | forTest {init : Body} {test test' : Test} {step body : Body} :
    Test.Cut test test' → Stmt.Cut (.forLoop init test step body) (.forLoop init test' step body)
  | forStep {init : Body} {test : Test} {step step' body : Body} :
    Body.Cut step step' → Stmt.Cut (.forLoop init test step body) (.forLoop init test step' body)
  | forBody {init : Body} {test : Test} {step body body' : Body} :
    Body.Cut body body' → Stmt.Cut (.forLoop init test step body) (.forLoop init test step body')
  | forN {n : Term} {bind : Name} {body body' : Body} :
    Body.Cut body body' → Stmt.Cut (.forN n bind body) (.forN n bind body')
  | forRange {first last bind : Name} {body body' : Body} :
    Body.Cut body body' → Stmt.Cut (.forRange first last bind body) (.forRange first last bind body')
  | forRangePtr {first last bind : Name} {body body' : Body} :
    Body.Cut body body' → Stmt.Cut (.forRangePtr first last bind body) (.forRangePtr first last bind body')

/-- The second script stops at a point of the first: between statements, or within one. -/
inductive CutAll : List Stmt → List Stmt → Prop
  | here (ss : List Stmt) (f : Fault) : CutAll ss [.fault f]
  | within {s s' : Stmt} (ss : List Stmt) : Stmt.Cut s s' → CutAll (s :: ss) [s']
  | later (s : Stmt) {ss ss' : List Stmt} : CutAll ss ss' → CutAll (s :: ss) (s :: ss')

@[inherit_doc Stmt.Cut]
inductive Body.Cut : Body → Body → Prop
  | stmts {ss ss' : List Stmt} : CutAll ss ss' → Body.Cut (.stmts ss) (.stmts ss')

@[inherit_doc Stmt.Cut]
inductive Test.Cut : Test → Test → Prop
  | stmts {ss ss' : List Stmt} (v : Name) : CutAll ss ss' → Test.Cut (.stmts ss v) (.stmts ss' v)

end

/-! ## Statements -/

instance (ss : List Stmt) : StickyRun (execAll ss) :=
  have := @tameRun_execAll ⟨[], .void⟩ ss
  inferInstance

instance (b : Body) : StickyPart b.exec :=
  ⟨fun r hr => have := @tameRun_body ⟨[], .void⟩ b r hr; inferInstance⟩

instance (t : Test) : StickyPart t.exec :=
  ⟨fun r hr => have := @tameRun_test ⟨[], .void⟩ t r hr; inferInstance⟩

instance (n : Name) (p : Option (Run Unit)) [hp : StickyPart p] (v : Value) :
    StickyRun (applyTo (eachPart n p) v) := by
  cases p with
  | none => exact ⟨fun _ hw => hw⟩
  | some r =>
    have := hp.sticky r rfl
    exact inferInstanceAs (StickyRun (do bindName n v; record "each" (some v); r))

theorem Body.isSome_exec (b : Body) : b.exec.isSome = b.given := by
  cases b <;> rfl

/-- A count that is not there is rejected. -/
theorem reads_forN_none [∀ v, StickyRun (applyTo each v)] :
    Reads (forN (.value none) each position) C sc nodes sc' () := by
  intro w s A u w' hat _ _ _ hrun hw'
  obtain ⟨r, w1, hrun1, hw1, -⟩ := bind_accepted hrun hw'
  obtain ⟨s', hs', herr, -⟩ := here_accepted hat hrun1 hw1
  obtain ⟨_, t, hready, h1⟩ := Attempt.bind_ok (attempt_ok hs' herr)
  obtain ⟨_, t', hpure, h2⟩ := Attempt.bind_ok h1
  obtain ⟨rfl, -⟩ := Attempt.pure_ok hpure
  obtain ⟨_, t'', huse, -⟩ := Attempt.bind_ok h2
  obtain ⟨-, v, -, -, hv, -⟩ := use_ok huse
  cases hv

/-- A loop over numbers whose body is a part of the script. -/
theorem forN_reads {x : Term} [StickyPart p] {body : Scope → List Node × Scope}
    (hx : sc.HasOperand (sc.operand x)) (hkeep : ∀ sc : Scope, sc.Precedes (body sc).2)
    (hbody : ∀ sc, PartReads p C sc (body sc).1 (body sc).2) :
    Reads (forN (sc.operand x) (eachPart n p) position)
      {c | ∃ r ∈ C, c = forN (sc.operand x) (eachPart n (some r)) position} sc
      ((sc.count x).1 ++ ((sc.count x).2.2.cursorLoop (sc.count x).2.1.ty ((Operand.ofInt 0).source (sc.count x).2.1.ty)
        .lt (.value (sc.count x).2.1) (.arith .add) fun i sc => body (sc.bind n i)).1)
      ((sc.count x).2.2.cursorLoop (sc.count x).2.1.ty ((Operand.ofInt 0).source (sc.count x).2.1.ty) .lt
        (.value (sc.count x).2.1) (.arith .add) fun i sc => body (sc.bind n i)).2 () := by
  have heach : ∀ (i : Value) (sc2 : Scope), sc2.Has i → (body (sc2.bind n i)).2.Has i ∧
      Reads (applyTo (eachPart n p) i) {c | ∃ r ∈ C, c = applyTo (eachPart n (some r)) i} sc2
        (body (sc2.bind n i)).1 (body (sc2.bind n i)).2 () := fun i sc2 hi =>
    ⟨hi.mono ((sc2.precedes_bind n i).trans (hkeep _)), (hbody _).each hi⟩
  cases x with
  | const c =>
    refine (reads_forN computes_count_const rfl (sc.has_newest_grow .i64) rfl (heach _)).mono ?_
    rintro _ ⟨r, hr, rfl⟩
    exact ⟨_, ⟨r, hr, rfl⟩, rfl⟩
  | name m =>
    cases hfind : sc.find m with
    | none =>
      rw [Scope.operand, hfind]
      exact reads_forN_none
    | some v =>
      have hv : sc.Has v := hx v (by rw [Scope.operand, hfind])
      have hvalue : sc.value m = v := by rw [Scope.value, hfind]; rfl
      rw [Scope.operand, hfind]
      dsimp only [Scope.count]
      rw [hvalue]
      refine (reads_forN (computes_count hv) sc.grow_nil hv rfl (heach _)).mono ?_
      rintro _ ⟨r, hr, rfl⟩
      exact ⟨_, ⟨r, hr, rfl⟩, rfl⟩

/-- A body that is given what the cursor points to. -/
def givenElement (n : Name) (body : Scope → List Node × Scope) (p : Value) (sc : Scope) : List Node × Scope :=
  let sc₁ := sc.grow [pointee p.ty]
  let read := body (sc₁.bind n sc₁.newest)
  ((UnaryOp.load.read p sc.size).1 ++ read.1, read.2)

/-- A loop over elements whose body is a part of the script. -/
theorem forRange_reads {first last : Name} [StickyPart p] {body : Scope → List Node × Scope}
    (hfirst : ∀ u, sc.find first = some u → sc.Has u) (hlast : ∀ u, sc.find last = some u → sc.Has u)
    (hkeep : ∀ sc : Scope, sc.Precedes (body sc).2) (hbody : ∀ sc, PartReads p C sc (body sc).1 (body sc).2) :
    Reads (forRange (sc.find first) (sc.find last) (eachPart n p) position)
      {c | ∃ r ∈ C, c = forRange (sc.find first) (sc.find last) (eachPart n (some r)) position} sc
      (sc.cursorLoop (sc.value first).ty (.cell (sc.value first).cell) .ne (.value (sc.find last)) .index
        (givenElement n body)).1
      (sc.cursorLoop (sc.value first).ty (.cell (sc.value first).cell) .ne (.value (sc.find last)) .index
        (givenElement n body)).2 () := by
  refine (reads_forRangePtr (C := {c | ∃ r ∈ C, c = applyTo (some fun p => do
    applyTo (eachPart n (some r)) (← here (loadAs "for-range" p position))) (sc.grow [(sc.value first).ty]).newest})
    _ hfirst hlast rfl rfl fun sc2 hi => ⟨?_, ?_⟩).mono ?_
  · exact hi.mono (((sc2.precedes_grow _).trans (Scope.precedes_bind _ n _)).trans (hkeep _))
  · refine (reads_loaded hi ((hbody _).each (Scope.has_newest_grow _ _))).mono ?_
    rintro _ ⟨r, hr, rfl⟩
    exact ⟨_, ⟨r, hr, rfl⟩, rfl⟩
  · rintro _ ⟨r, hr, rfl⟩
    exact ⟨_, ⟨r, hr, rfl⟩, rfl⟩

theorem Scope.cell_value (sc : Scope) (n : Name) : (sc.value n).cell = conditionCell (sc.find n) := by
  rw [Scope.value]
  cases sc.find n <;> rfl

theorem reads_yields {e : Edit Value} {made : List Node × List Ty} (hmade : made.2 ≠ [])
    (he : Computes e sc made.1 made.2 (sc.grow made.2).newest) :
    Reads (here e >>= fun v => yields stmt n v) ∅ sc (sc.yield n made).1 (sc.yield n made).2 () := by
  have hhas : (sc.grow made.2).Has (sc.grow made.2).newest := Scope.has_newest (by simp [Scope.grow, hmade])
  intro w s
  exact ((reads_here he).renames fun _ => renames_yields _ _ hhas) w s |>.mono (Set.empty_subset _)

theorem reads_done {e : Edit Unit} {v : Option Value} (he : Computes e sc nodes [] ()) :
    Reads (do here e; record stmt v) ∅ sc nodes sc () := by
  intro w s
  have hreads := (reads_here he).renames (f := fun _ => record stmt v) fun _ => renames_record stmt v
  rw [Scope.grow_nil] at hreads
  exact (hreads w s).mono (Set.empty_subset _)

theorem binary_made (op : BinaryOp) (v : Value) (x : Operand) (out : Nat) : (op.read v x out).2 ≠ [] := by
  cases op <;> simp [BinaryOp.read]

theorem unary_made (op : UnaryOp) (v : Value) (out : Nat) : (op.read v out).2 ≠ [] := by
  cases op <;> simp [UnaryOp.read]

/-- An argument is a variable already. -/
theorem reads_arg {k : Int} :
    Reads (here (arg k position) >>= fun v => yields stmt n v) ∅ sc [] (sc.bind n (sc.argument k)) () := by
  intro w s A u w' hat hd hr _ hrun hw'
  obtain ⟨v, w1, hrun1, hw1, hrun⟩ := bind_accepted hrun hw'
  obtain ⟨s', hs', herr, rfl⟩ := here_accepted hat hrun1 hw1
  obtain ⟨hv, rfl, t, ht, hvt⟩ := arg_ok hat.toFits hs' herr
  have hput : put w s' = w := by rw [put, ← hat.only]
  rw [hput] at hrun
  obtain ⟨w2, hw2, hat2⟩ := renames_yields stmt n (hvt ▸ hat.valid.param ht) w s' hat
  cases hw2.symm.trans hrun
  exact ⟨rfl, s', A, hv ▸ hat2, draws_nil hd hr, by simp⟩

theorem reads_args {stem : Name} {f : List Value → String} : Reads (do
      let vs ← here (args position)
      bindAll stem 0 vs
      record (f vs) none) ∅ sc [] (sc.bindAll stem 0 sc.arguments) () := by
  intro w s A u w' hat hd hr _ hrun hw'
  obtain ⟨vs, w1, hrun1, hw1, hrun⟩ := bind_accepted hrun hw'
  obtain ⟨s', hs', herr, rfl⟩ := here_accepted hat hrun1 hw1
  obtain ⟨rfl, rfl⟩ := args_ok hat.toFits hs' herr
  have hput : put w s' = w := by rw [put, ← hat.only]
  rw [hput] at hrun
  have hrenames := (renames_bindAll stem hat.valid.argument 0).bind
    (f := fun _ => record (f sc.arguments) none) (renames_record _ none)
  obtain ⟨w2, hw2, hat2⟩ := hrenames w s' hat
  cases hw2.symm.trans hrun
  exact ⟨rfl, s', A, hat2, draws_nil hd hr, by simp⟩

mutual

theorem Stmt.reads (s : Stmt) (hs : s.plain = true) (sc : Scope) :
    Reads s.exec {c | ∃ q, s.Cut q ∧ c = q.exec} sc (s.read sc).1 (s.read sc).2 () := by
  -- Statements without parts are not cut.
  have hnone : ∀ {r : Run Unit} {C : Set (Run Unit)} {nodes : List Node} {sc' : Scope}, (∀ q, ¬ s.Cut q) →
      Reads r C sc nodes sc' () → Reads r {c | ∃ q, s.Cut q ∧ c = q.exec} sc nodes sc' () := fun hcut h w s =>
    (h w s).mono fun c ⟨q, hq, _⟩ => absurd hq (hcut q)
  cases s with
  | arg bind n =>
    rw [Stmt.exec, Stmt.read]
    exact hnone nofun reads_arg
  | args stem =>
    rw [Stmt.exec, Stmt.read]
    exact hnone nofun reads_args
  | const bind ty x =>
    rw [Stmt.exec, Stmt.read]
    exact hnone nofun (reads_term fun _ => reads_yields (List.cons_ne_nil _ _) computes_const)
  | var bind v =>
    rw [Stmt.exec, Stmt.read]
    refine hnone nofun (reads_lookup (C := ∅) fun hv => reads_yields (unary_made _ _ _) (computes_var hv ?_))
    rw [Scope.value]
    cases sc.find v <;> rfl
  | binary op bind v x =>
    rw [Stmt.exec, Stmt.read]
    refine hnone nofun (reads_receiver fun hvalid hv => reads_term (C := ∅) fun hx => ?_)
    rw [hvalid.on hv]
    exact reads_yields (binary_made _ _ _ _) (computes_binary (by simpa [Stmt.plain] using hs) hv hx)
  | unary op bind v =>
    rw [Stmt.exec, Stmt.read]
    refine hnone nofun (reads_receiver (C := ∅) fun hvalid hv => ?_)
    rw [hvalid.on hv]
    exact reads_yields (unary_made _ _ _) (computes_unary (by simpa [Stmt.plain] using hs) hv)
  | convert bind v ty =>
    rw [Stmt.exec, Stmt.read]
    refine hnone nofun (reads_receiver (C := ∅) fun hvalid hv => ?_)
    rw [hvalid.on hv]
    exact reads_yields (List.cons_ne_nil _ _) (computes_convert hv)
  | field bind v field =>
    rw [Stmt.exec, Stmt.read]
    refine hnone nofun (reads_receiver (C := ∅) fun hvalid hv => ?_)
    rw [hvalid.on hv]
    exact reads_yields (List.cons_ne_nil _ _) (computes_field hv)
  | diff bind v q =>
    rw [Stmt.exec, Stmt.read, sc.cell_value q]
    refine hnone nofun (reads_receiver fun hvalid hv => reads_lookup (C := ∅) fun hq => ?_)
    rw [hvalid.on hv]
    exact reads_yields (List.cons_ne_nil _ _) (computes_diff hv hq)
  | store v x =>
    rw [Stmt.exec, Stmt.read]
    refine hnone nofun (reads_receiver fun hvalid hv => reads_term (C := ∅) fun hx => ?_)
    rw [hvalid.on hv]
    exact reads_done (computes_store hv hx)
  | assign v x =>
    rw [Stmt.exec, Stmt.read]
    refine hnone nofun (reads_receiver fun hvalid hv => reads_term (C := ∅) fun hx => ?_)
    rw [hvalid.on hv]
    exact reads_done (computes_assign hv hx)
  | ret x =>
    rw [Stmt.exec, Stmt.read]
    exact hnone nofun (reads_term fun hx => reads_done (computes_ret hx))
  | leaveLoop =>
    rw [Stmt.exec, Stmt.read]
    exact hnone nofun (reads_done computes_leaveLoop)
  | nextRound =>
    rw [Stmt.exec, Stmt.read]
    exact hnone nofun (reads_done computes_nextRound)
  | ifThen c yes =>
    rw [Stmt.exec, Stmt.read]
    refine Reads.mono (reads_lookup fun hc => (reads_ifThen hc (yes.reads hs sc)).renames fun _ =>
      renames_recordConstruct _) ?_
    rintro _ ⟨q, hq, rfl⟩
    cases hq with
    | ifThen hq =>
      cases hq with
      | stmts hq =>
        rw [Stmt.exec]
        exact ⟨_, ⟨_, ⟨_, ⟨_, .stmts hq, rfl⟩, rfl⟩, _, rfl⟩, rfl⟩
  | ifElse c yes no =>
    rw [Stmt.exec, Stmt.read]
    obtain ⟨hyes, hno⟩ := Bool.and_eq_true_iff.1 hs
    cases no with
    | missing =>
      refine Reads.mono (reads_lookup fun hc => (reads_ifThen hc (yes.reads hyes sc)).renames fun _ =>
        renames_recordConstruct _) ?_
      rintro _ ⟨q, hq, rfl⟩
      rcases hq with _ | ⟨⟨hq⟩⟩ | ⟨⟨⟩⟩
      rw [Stmt.exec]
      exact ⟨_, ⟨_, ⟨_, ⟨_, .stmts hq, rfl⟩, rfl⟩, _, rfl⟩, rfl⟩
    | stmts ss =>
      refine Reads.mono (reads_lookup fun hc => (reads_ifElse hc (yes.reads hyes sc)
        ((Body.stmts ss).reads hno _)).renames fun _ => renames_recordConstruct _) ?_
      rintro _ ⟨q, hq, rfl⟩
      rcases hq with _ | ⟨⟨hq⟩⟩ | ⟨⟨hq⟩⟩ <;> rw [Stmt.exec]
      · exact ⟨_, ⟨_, .inl ⟨_, ⟨_, .stmts hq, rfl⟩, rfl⟩, _, rfl⟩, rfl⟩
      · exact ⟨_, ⟨_, .inr ⟨_, ⟨_, .stmts hq, rfl⟩, rfl⟩, _, rfl⟩, rfl⟩
  | whileLoop test body =>
    rw [Stmt.exec, Stmt.read]
    obtain ⟨htest, hbody⟩ := Bool.and_eq_true_iff.1 hs
    refine Reads.mono ((reads_whileLoop (test.reads htest sc) (body.reads hbody _)).renames fun _ =>
      renames_recordConstruct _) ?_
    rintro _ ⟨q, hq, rfl⟩
    cases hq with
    | whileTest hq =>
      cases hq with
      | stmts v hq =>
        rw [Stmt.exec]
        exact ⟨_, .inl ⟨_, ⟨_, _, .stmts v hq, rfl⟩, rfl⟩, _, rfl⟩
    | whileBody hq =>
      cases hq with
      | stmts hq =>
        rw [Stmt.exec]
        exact ⟨_, .inr ⟨_, ⟨_, .stmts hq, rfl⟩, rfl⟩, _, rfl⟩
  | doWhile body test =>
    rw [Stmt.exec, Stmt.read]
    obtain ⟨hbody, htest⟩ := Bool.and_eq_true_iff.1 hs
    refine Reads.mono ((reads_doWhile (body.reads hbody sc) (test.reads htest _)).renames fun _ =>
      renames_recordConstruct _) ?_
    rintro _ ⟨q, hq, rfl⟩
    cases hq with
    | doBody hq =>
      cases hq with
      | stmts hq =>
        rw [Stmt.exec]
        exact ⟨_, .inl ⟨_, ⟨_, .stmts hq, rfl⟩, rfl⟩, _, rfl⟩
    | doTest hq =>
      cases hq with
      | stmts v hq =>
        rw [Stmt.exec]
        exact ⟨_, .inr ⟨_, ⟨_, _, .stmts v hq, rfl⟩, rfl⟩, _, rfl⟩
  | forLoop init test step body =>
    rw [Stmt.exec, Stmt.read, ← step.isSome_exec]
    simp only [Stmt.plain, Bool.and_eq_true] at hs
    obtain ⟨⟨⟨hinit, htest⟩, hstep⟩, hbody⟩ := hs
    refine Reads.mono ((reads_forLoop (init.reads hinit sc) (test.reads htest _) (body.reads hbody _)
      (step.reads hstep _)).renames fun _ => renames_recordConstruct _) ?_
    rintro _ ⟨q, hq, rfl⟩
    cases hq with
    | forInit hq =>
      cases hq with
      | stmts hq =>
        rw [Stmt.exec]
        exact ⟨_, .inl (.inl (.inl ⟨_, ⟨_, .stmts hq, rfl⟩, rfl⟩)), _, rfl⟩
    | forTest hq =>
      cases hq with
      | stmts v hq =>
        rw [Stmt.exec]
        exact ⟨_, .inl (.inl (.inr ⟨_, ⟨_, _, .stmts v hq, rfl⟩, rfl⟩)), _, rfl⟩
    | forStep hq =>
      cases hq with
      | stmts hq =>
        rw [Stmt.exec]
        exact ⟨_, .inl (.inr ⟨_, ⟨_, .stmts hq, rfl⟩, rfl⟩), _, rfl⟩
    | forBody hq =>
      cases hq with
      | stmts hq =>
        rw [Stmt.exec]
        exact ⟨_, .inr ⟨_, ⟨_, .stmts hq, rfl⟩, rfl⟩, _, rfl⟩
  | forN x bind body =>
    rw [Stmt.exec, Stmt.read_forN]
    refine Reads.mono (reads_term fun hx => (forN_reads (C := {c | ∃ q, body.Cut (.stmts q) ∧ c = execAll q}) hx
      (fun sc => body.precedes_read sc) fun sc => body.reads hs sc).renames
        fun _ => renames_recordConstruct _) ?_
    rintro _ ⟨q, hq, rfl⟩
    cases hq with
    | forN hq =>
      cases hq with
      | stmts hq =>
        rw [Stmt.exec]
        exact ⟨_, ⟨_, ⟨_, ⟨_, .stmts hq, rfl⟩, rfl⟩, _, rfl⟩, rfl⟩
  | forRange first last bind body =>
    rw [Stmt.exec, Stmt.read]
    refine Reads.mono (reads_lookup fun hfirst => reads_lookup fun hlast =>
      (forRange_reads (C := {c | ∃ q, body.Cut (.stmts q) ∧ c = execAll q}) hfirst hlast
        (fun sc => body.precedes_read sc) fun sc => body.reads hs sc).renames
          fun _ => renames_recordConstruct _) ?_
    rintro _ ⟨q, hq, rfl⟩
    cases hq with
    | forRange hq =>
      cases hq with
      | stmts hq =>
        rw [Stmt.exec]
        exact ⟨_, ⟨_, ⟨_, ⟨_, ⟨_, .stmts hq, rfl⟩, rfl⟩, _, rfl⟩, rfl⟩, rfl⟩
  | forRangePtr first last bind body =>
    rw [Stmt.exec, Stmt.read]
    refine Reads.mono (reads_lookup fun hfirst => reads_lookup fun hlast =>
      (reads_forRangePtr (C := _) (fun p sc => body.read (sc.bind bind p)) hfirst hlast rfl rfl fun sc2 hi =>
        ⟨hi.mono ((sc2.precedes_bind bind _).trans (body.precedes_read _)),
          PartReads.each (body.reads hs (sc2.bind bind _)) hi⟩).renames fun _ => renames_recordConstruct _) ?_
    rintro _ ⟨q, hq, rfl⟩
    cases hq with
    | forRangePtr hq =>
      cases hq with
      | stmts hq =>
        rw [Stmt.exec]
        exact ⟨_, ⟨_, ⟨_, ⟨_, ⟨_, ⟨_, .stmts hq, rfl⟩, rfl⟩, rfl⟩, _, rfl⟩, rfl⟩, rfl⟩
  | finalize => cases hs
  | foreign bind ty => cases hs
  | fault f => cases hs

theorem reads_execAll (ss : List Stmt) (hss : plainAll ss = true) (sc : Scope) :
    Reads (execAll ss) {c | ∃ q, CutAll ss q ∧ c = execAll q} sc (readAll ss sc).1 (readAll ss sc).2 () := by
  intro w s
  have hfault : ∀ f : Fault, execAll [.fault f] w = (.error f, w) := fun f => by
    rw [execAll, Stmt.exec]
    rfl
  cases ss with
  | nil =>
    rw [execAll, readAll]
    refine ((reads_pure sc w s).stop).mono ?_
    rintro _ ⟨q, hq, rfl⟩
    cases hq with
    | here ss f => exact .inr ⟨f, hfault f⟩
  | cons s' ss =>
    obtain ⟨hs', hss⟩ := Bool.and_eq_true_iff.1 hss
    rw [execAll, readAll]
    refine (((s'.reads hs' sc w s).bind (reads_execAll ss hss _)).stop).mono ?_
    rintro _ ⟨q, hq, rfl⟩
    cases hq with
    | here ss f => exact .inr ⟨f, hfault f⟩
    | within ss hq => exact .inl (.inl ⟨_, ⟨_, hq, rfl⟩, _, by rw [execAll]⟩)
    | later s hq => exact .inl (.inr ⟨_, ⟨_, hq, rfl⟩, by rw [execAll]⟩)

theorem Body.reads (b : Body) (hb : b.plain = true) (sc : Scope) :
    PartReads b.exec {c | ∃ q, b.Cut (.stmts q) ∧ c = execAll q} sc (b.read sc).1 (b.read sc).2 := by
  cases b with
  | missing =>
    refine ⟨Set.eq_empty_of_forall_notMem ?_, rfl, rfl⟩
    rintro c ⟨q, hq, -⟩
    cases hq
  | stmts ss =>
    intro w s
    refine (reads_execAll ss hb sc w s).mono ?_
    rintro c ⟨q, hq, rfl⟩
    cases hq with
    | stmts hq => exact ⟨q, hq, rfl⟩

theorem Test.reads (t : Test) (ht : t.plain = true) (sc : Scope) :
    TestReads t.exec {c | ∃ q v, t.Cut (.stmts q v) ∧ c = (do execAll q; lookup v)} sc (t.read sc).1
      (t.read sc).2.1 (t.read sc).2.2 := by
  cases t with
  | missing =>
    refine ⟨Set.eq_empty_of_forall_notMem ?_, rfl, rfl, rfl⟩
    rintro c ⟨q, v, hq, -⟩
    cases hq
  | stmts ss v =>
    refine ⟨(readAll ss sc).2.find v, fun w s => ?_, rfl, fun hvalid u hu => hvalid.find hu⟩
    have hlookup : Reads (lookup v) ∅ (readAll ss sc).2 [] (readAll ss sc).2 ((readAll ss sc).2.find v) := by
      intro w s A a w' hat hd hr _ hrun _
      cases (hat.find v).symm.trans hrun
      exact ⟨rfl, s, A, hat, draws_nil hd hr, nofun⟩
    have hreads := (reads_execAll ss ht sc w s).bind (f := fun _ => lookup v) hlookup
    rw [List.append_nil] at hreads
    refine hreads.mono ?_
    rintro _ ⟨q, u, hq, rfl⟩
    cases hq with
    | stmts v hq => exact .inl ⟨_, ⟨q, hq, rfl⟩, _, rfl⟩

end

end Codesmith.Script
