/-
# CPU affinity

A worker reads from its configuration on which CPUs its threads are to run: a text with the
CPU of the worker, a list with one CPU for each compute thread, and those of the input and of
the output thread, as in `0;1,2,3;4;5`. The loop over the list looks for the comma behind each
number.
-/

import AFStream.Foundation.CText
import AFStream.Foundation.PartialLoops

namespace AFStream.Thread

open AFStream.Foundation

/-- `;` -/
def semicolon : UInt8 := 59

/-- `,` -/
def comma : UInt8 := 44

/-- The threads of a worker. It always has an `UpThread`. -/
structure WorkerThreads where
  computeThreads : ℕ
  hasDownThread : Bool

/-- The calls that assign a CPU. -/
inductive AffinityCall
  | pinToCpu (cpu : ℤ)
  | assignCompute (index : ℕ) (cpu : ℤ)
  | assignUp (cpu : ℤ)
  | assignDown (cpu : ℤ)
  deriving DecidableEq

/-- `find` from a position on. -/
def find (text : List UInt8) (b : UInt8) (start : ℕ) : Option ℕ :=
  ((text.drop start).findIdx? (· = b)).map (start + ·)

/-- `substr` -/
def substr (text : List UInt8) (start length : ℕ) : List UInt8 := (text.drop start).take length

namespace WorkerThreads

variable (worker : WorkerThreads)

/-- The loop over the CPUs of the compute threads, with a bound on its iterations. An index
outside `compute_threads_` is undefined. -/
def assignLoop (text : List UInt8) : ℕ → ℕ → ℕ → Option (List AffinityCall)
  | 0, _, _ => some []
  | bound + 1, start, index =>
    match find text comma start with
    | none => some []
    | some found => do
      let cpu ← atoi (substr text start (found - start))
      if index < worker.computeThreads then
        let calls ← assignLoop text bound (found + 1) (index + 1)
        return .assignCompute index cpu :: calls
      else none

/-- The part of `ParseCPUAffinity` for a field, if there is such a field. -/
def withField (strings : List (List UInt8)) (n : ℕ)
    (assign : List UInt8 → Option (List AffinityCall)) : Option (List AffinityCall) :=
  match strings[n]? with
  | none => some []
  | some text => assign text

/-- `ParseCPUAffinity`, with the calls that it makes. -/
def parseCPUAffinity (str : List UInt8) : Option (List AffinityCall) := do
  let strings := fields semicolon str
  let pin ← withField strings 0 fun text => do
    return [.pinToCpu (← atoi text)]
  let compute ← withField strings 1 fun text => worker.assignLoop text text.length 0 0
  let up ← withField strings 2 fun text => do
    return [.assignUp (← atoi text)]
  let down ← withField strings 3 fun text => do
    let cpu ← atoi text
    if worker.hasDownThread then return [.assignDown cpu] else none
  return pin ++ compute ++ up ++ down

/-- The documented form: the CPU of the worker, those of the compute threads, and those of the
input and of the output thread. -/
def affinityText (pin : List UInt8) (cpus : List (List UInt8)) (input output : List UInt8) :
    List UInt8 :=
  [semicolon].intercalate [pin, [comma].intercalate cpus, input, output]

/-- Every compute thread is assigned its CPU, and so are the other threads. -/
def AssignsEveryCpu (pin : List UInt8) (cpus : List (List UInt8)) (input output : List UInt8) :
    Prop :=
  ∃ calls, worker.parseCPUAffinity (affinityText pin cpus input output) = some calls ∧
    (∀ i cpu, cpus[i]? = some cpu → .assignCompute i (decimal cpu : ℤ) ∈ calls) ∧
    .assignUp (decimal input : ℤ) ∈ calls ∧ .assignDown (decimal output : ℤ) ∈ calls

/-! ## The loop -/

variable {worker}

/-- Numbers that are each followed by a comma, and what comes behind the last comma. -/
def commaList (pieces : List (List UInt8)) (last : List UInt8) : List UInt8 :=
  pieces.flatMap (fun piece => piece ++ [comma]) ++ last

theorem intercalate_eq_commaList {cpus : List (List UInt8)} (hne : cpus ≠ []) :
    [comma].intercalate cpus = commaList cpus.dropLast (cpus.getLast hne) := by
  induction cpus with
  | nil => exact absurd rfl hne
  | cons cpu rest ih =>
      cases rest with
      | nil => rw [List.intercalate_singleton]; rfl
      | cons next rest =>
          have htail := ih (List.cons_ne_nil next rest)
          rw [List.intercalate_cons_cons, htail, List.getLast_cons_cons,
            List.dropLast_cons_cons, commaList, commaList, List.flatMap_cons]
          simp only [List.append_assoc]

theorem find_of_drop {text rest piece : List UInt8} {start : ℕ} (hpiece : comma ∉ piece)
    (hdrop : text.drop start = piece ++ comma :: rest) :
    find text comma start = some (start + piece.length) := by
  have hindex : (piece ++ comma :: rest).findIdx? (· = comma) = some piece.length := by
    rw [List.findIdx?_append, List.findIdx?_eq_none_iff.mpr]
    · simp [List.findIdx?_cons]
    · intro b hb
      exact decide_eq_false (ne_of_mem_of_not_mem hb hpiece)
  rw [find, hdrop, hindex]
  rfl

theorem find_eq_none {text last : List UInt8} {start : ℕ} (hlast : comma ∉ last)
    (hdrop : text.drop start = last) : find text comma start = none := by
  have hindex : last.findIdx? (· = comma) = none := by
    rw [List.findIdx?_eq_none_iff]
    intro b hb
    exact decide_eq_false (ne_of_mem_of_not_mem hb hlast)
  rw [find, hdrop, hindex]
  rfl

/-- The call for a number of the list. -/
def assignPiece (piece : List UInt8 × ℕ) : Option AffinityCall :=
  (atoi piece.1).map fun cpu => .assignCompute piece.2 cpu

/-- **The loop stops at the last comma.** What is behind it is not assigned. -/
theorem assignLoop_eq {pieces : List (List UInt8)} {last text : List UInt8}
    (hpieces : ∀ piece ∈ pieces, comma ∉ piece) (hlast : comma ∉ last) {bound start index : ℕ}
    (hdrop : text.drop start = commaList pieces last) (hbound : pieces.length ≤ bound)
    (hindex : index + pieces.length ≤ worker.computeThreads) :
    worker.assignLoop text bound start index = (pieces.zipIdx index).mapM assignPiece := by
  induction pieces generalizing bound start index with
  | nil =>
      rw [List.zipIdx_nil, List.mapM_nil, Option.pure_def]
      cases bound with
      | zero => rfl
      | succ bound => rw [assignLoop, find_eq_none hlast hdrop]
  | cons piece rest ih =>
      rw [List.forall_mem_cons] at hpieces
      rw [commaList, List.flatMap_cons, List.append_assoc, List.append_assoc,
        List.singleton_append] at hdrop
      cases bound with
      | zero => exact absurd hbound (Nat.not_succ_le_zero _)
      | succ bound =>
          have hnext : text.drop (start + piece.length + 1) = commaList rest last := by
            rw [← List.drop_drop, ← List.drop_drop, hdrop, List.drop_left]
            rfl
          have hpiece : substr text start (start + piece.length - start) = piece := by
            rw [substr, hdrop, Nat.add_sub_cancel_left, List.take_left]
          rw [List.length_cons] at hindex
          have hlt : index < worker.computeThreads := by omega
          have hrest := ih hpieces.2 hnext (Nat.le_of_succ_le_succ hbound)
            (show index + 1 + rest.length ≤ worker.computeThreads by omega)
          rw [assignLoop, find_of_drop hpieces.1 hdrop]
          dsimp only
          rw [hpiece, List.zipIdx_cons, List.mapM_cons, assignPiece]
          cases atoi piece with
          | none => rfl
          | some cpu =>
              rw [Option.bind_eq_bind, Option.bind_some, if_pos hlt, hrest]
              rfl

/-! ## The text of the configuration -/

variable {pin input output : List UInt8} {cpus : List (List UInt8)}

theorem semicolon_not_mem {text : List UInt8} (h : IsNumeral text) : semicolon ∉ text :=
  h.not_mem (by decide)

theorem comma_not_mem {text : List UInt8} (h : IsNumeral text) : comma ∉ text :=
  h.not_mem (by decide)

/-- The second field of a text, with its four fields. -/
theorem fields_of_commaList (hpin : IsNumeral pin) {pieces : List (List UInt8)}
    (hpieces : ∀ piece ∈ pieces, IsNumeral piece) {last : List UInt8} (hlast : semicolon ∉ last)
    (hne : commaList pieces last ≠ []) (hinput : IsNumeral input) (houtput : IsNumeral output) :
    fields semicolon ([semicolon].intercalate [pin, commaList pieces last, input, output]) =
      [pin, commaList pieces last, input, output] := by
  have hlist : semicolon ∉ commaList pieces last := by
    intro hmem
    rcases List.mem_append.mp hmem with hpiece | hmem
    · obtain ⟨piece, hpiece, hmem⟩ := List.mem_flatMap.mp hpiece
      rcases List.mem_append.mp hmem with hmem | hmem
      · exact semicolon_not_mem (hpieces piece hpiece) hmem
      · exact absurd (List.mem_singleton.mp hmem) (by decide)
    · exact hlast hmem
  apply fields_intercalate
  simp only [List.forall_mem_cons, List.not_mem_nil, false_implies, implies_true, and_true]
  exact ⟨⟨semicolon_not_mem hpin, hpin.1⟩, ⟨hlist, hne⟩, ⟨semicolon_not_mem hinput, hinput.1⟩,
    semicolon_not_mem houtput, houtput.1⟩

theorem length_le_length_commaList (pieces : List (List UInt8)) (last : List UInt8) :
    pieces.length ≤ (commaList pieces last).length := by
  induction pieces with
  | nil => exact Nat.zero_le _
  | cons piece rest ih =>
      rw [commaList, List.length_append] at ih ⊢
      rw [List.flatMap_cons, List.length_append, List.length_append, List.length_singleton,
        List.length_cons]
      omega

/-- **The calls of `ParseCPUAffinity`.** Of the list only the numbers in front of a comma are
assigned. -/
theorem parse_commaList (hpin : IsNumeral pin) {pieces : List (List UInt8)}
    (hpieces : ∀ piece ∈ pieces, IsNumeral piece) {last : List UInt8} (hlast : semicolon ∉ last)
    (hcomma : comma ∉ last) (hne : commaList pieces last ≠ []) (hinput : IsNumeral input)
    (houtput : IsNumeral output) (hindex : pieces.length ≤ worker.computeThreads) :
    worker.parseCPUAffinity ([semicolon].intercalate [pin, commaList pieces last, input, output]) =
      (atoi pin).bind fun p => (pieces.zipIdx.mapM assignPiece).bind fun calls =>
        (atoi input).bind fun u => (atoi output).bind fun d =>
          if worker.hasDownThread then
            some (.pinToCpu p :: calls ++ [.assignUp u, .assignDown d])
          else none := by
  have hloop := @assignLoop_eq worker pieces last (commaList pieces last)
    (fun piece hpiece => comma_not_mem (hpieces piece hpiece)) hcomma
    (commaList pieces last).length 0 0 rfl (length_le_length_commaList pieces last)
    (by rwa [Nat.zero_add])
  rw [parseCPUAffinity, fields_of_commaList hpin hpieces hlast hne hinput houtput]
  simp only [withField, List.getElem?_cons_zero, List.getElem?_cons_succ, hloop,
    Option.bind_eq_bind, Option.pure_def]
  cases atoi pin with
  | none => rfl
  | some p =>
      cases pieces.zipIdx.mapM assignPiece with
      | none => rfl
      | some calls =>
          cases atoi input with
          | none => rfl
          | some u =>
              cases atoi output with
              | none => rfl
              | some d =>
                  cases worker.hasDownThread with
                  | false => rfl
                  | true =>
                      simp only [Option.bind_some, if_true, List.append_assoc, List.cons_append,
                        List.nil_append]

/-- With a comma behind every number all compute threads are assigned their CPUs. -/
theorem parse_trailing_comma (hpin : IsNumeral pin) (hcpus : ∀ cpu ∈ cpus, IsNumeral cpu)
    (hne : cpus ≠ []) (hinput : IsNumeral input) (houtput : IsNumeral output)
    (hindex : cpus.length ≤ worker.computeThreads) {calls : List AffinityCall}
    (hcalls : worker.parseCPUAffinity
      ([semicolon].intercalate [pin, commaList cpus [], input, output]) = some calls) :
    ∀ i cpu, cpus[i]? = some cpu → .assignCompute i (decimal cpu : ℤ) ∈ calls := by
  have hlist : commaList cpus [] ≠ [] := by
    have hlength := length_le_length_commaList cpus []
    have hpos := List.length_pos_of_ne_nil hne
    exact List.ne_nil_of_length_pos (hpos.trans_le hlength)
  rw [parse_commaList hpin hcpus List.not_mem_nil List.not_mem_nil hlist hinput houtput hindex]
    at hcalls
  obtain ⟨p, -, hcalls⟩ := Option.bind_eq_some_iff.mp hcalls
  obtain ⟨compute, hcompute, hcalls⟩ := Option.bind_eq_some_iff.mp hcalls
  obtain ⟨u, -, hcalls⟩ := Option.bind_eq_some_iff.mp hcalls
  obtain ⟨d, -, hcalls⟩ := Option.bind_eq_some_iff.mp hcalls
  split_ifs at hcalls
  obtain rfl := Option.some.inj hcalls
  intro i cpu hcpu
  have hmem : (cpu, i) ∈ cpus.zipIdx := List.mem_zipIdx_iff_getElem?.mpr hcpu
  obtain ⟨call, hcall, hassign⟩ := exists_right_of_forall₂ (mapM_eq_some_iff.mp hcompute) _ hmem
  obtain ⟨value, hvalue, rfl⟩ := Option.map_eq_some_iff.mp hassign
  rw [(hcpus cpu (List.mem_of_getElem? hcpu)).atoi_eq] at hvalue
  split_ifs at hvalue
  obtain rfl := Option.some.inj hvalue
  exact List.mem_append_left _ (List.mem_cons_of_mem _ hcall)

/-- The compute thread of the last CPU has no comma behind its number. -/
theorem last_not_assigned (hpin : IsNumeral pin) (hcpus : ∀ cpu ∈ cpus, IsNumeral cpu)
    (hne : cpus ≠ []) (hinput : IsNumeral input) (houtput : IsNumeral output)
    (hthreads : cpus.length = worker.computeThreads) {calls : List AffinityCall}
    (hcalls : worker.parseCPUAffinity (affinityText pin cpus input output) = some calls)
    (cpu : ℤ) : .assignCompute (cpus.length - 1) cpu ∉ calls := by
  have hlast := hcpus _ (List.getLast_mem hne)
  have hpieces : ∀ piece ∈ cpus.dropLast, IsNumeral piece :=
    fun piece hpiece => hcpus piece (List.dropLast_subset cpus hpiece)
  have hlist : commaList cpus.dropLast (cpus.getLast hne) ≠ [] :=
    List.append_ne_nil_of_right_ne_nil _ hlast.1
  have hindex : cpus.dropLast.length ≤ worker.computeThreads := by
    rw [List.length_dropLast, ← hthreads]
    exact Nat.sub_le _ _
  rw [affinityText, intercalate_eq_commaList hne, parse_commaList hpin hpieces
    (semicolon_not_mem hlast) (comma_not_mem hlast) hlist hinput houtput hindex] at hcalls
  obtain ⟨p, -, hcalls⟩ := Option.bind_eq_some_iff.mp hcalls
  obtain ⟨compute, hcompute, hcalls⟩ := Option.bind_eq_some_iff.mp hcalls
  obtain ⟨u, -, hcalls⟩ := Option.bind_eq_some_iff.mp hcalls
  obtain ⟨d, -, hcalls⟩ := Option.bind_eq_some_iff.mp hcalls
  split_ifs at hcalls
  obtain rfl := Option.some.inj hcalls
  intro hmem
  have hcall : .assignCompute (cpus.length - 1) cpu ∈ compute := by
    simpa using hmem
  obtain ⟨piece, hpiece, hassign⟩ := exists_left_of_forall₂ (mapM_eq_some_iff.mp hcompute) _ hcall
  obtain ⟨value, -, hsame⟩ := Option.map_eq_some_iff.mp hassign
  have hlt := (List.mem_zipIdx hpiece).2.1
  rw [List.length_dropLast, Nat.zero_add] at hlt
  rw [AffinityCall.assignCompute.injEq] at hsame
  exact hlt.ne hsame.1

/-- **The last CPU is never assigned.** Whatever the numbers are and however many compute
threads there are: the parser never assigns all CPUs of a text of the documented form. -/
theorem never_assigns_every_cpu (worker : WorkerThreads) (hpin : IsNumeral pin)
    (hcpus : ∀ cpu ∈ cpus, IsNumeral cpu) (hinput : IsNumeral input) (houtput : IsNumeral output)
    (hthreads : cpus.length = worker.computeThreads) (hpos : 0 < worker.computeThreads) :
    ¬ worker.AssignsEveryCpu pin cpus input output := by
  rintro ⟨calls, hcalls, hassigned, -⟩
  have hne : cpus ≠ [] := List.ne_nil_of_length_pos (hthreads ▸ hpos)
  apply last_not_assigned hpin hcpus hne hinput houtput hthreads hcalls
  exact hassigned _ _ (List.getLast?_eq_getElem? ▸ List.getLast?_eq_getLast_of_ne_nil hne)

/-- The text `0;1,2;3;4` for two compute threads. -/
theorem never_assigns_every_cpu_two_threads :
    IsNumeral [49] ∧
      ¬ (⟨2, true⟩ : WorkerThreads).AssignsEveryCpu [48] [[49], [50]] [51] [52] :=
  ⟨by decide, never_assigns_every_cpu ⟨2, true⟩ (by decide) (by decide) (by decide) (by decide)
    rfl (by decide)⟩

/-- The text `0;1,2;3;4`: CPU 2 is not assigned to the second compute thread. -/
theorem second_cpu_not_assigned :
    (⟨2, true⟩ : WorkerThreads).parseCPUAffinity (affinityText [48] [[49], [50]] [51] [52]) =
        some [.pinToCpu 0, .assignCompute 0 1, .assignUp 3, .assignDown 4] ∧
      ¬ (⟨2, true⟩ : WorkerThreads).AssignsEveryCpu [48] [[49], [50]] [51] [52] := by
  have hparse : (⟨2, true⟩ : WorkerThreads).parseCPUAffinity
      (affinityText [48] [[49], [50]] [51] [52]) =
        some [.pinToCpu 0, .assignCompute 0 1, .assignUp 3, .assignDown 4] := by
    decide +kernel
  refine ⟨hparse, ?_⟩
  rintro ⟨calls, hcalls, hassigned, -⟩
  obtain rfl := Option.some.inj (hparse.symm.trans hcalls)
  exact absurd (hassigned 1 [50] rfl) (by decide)

end WorkerThreads

end AFStream.Thread
