import Mathlib.Logic.Function.Basic
import Monoblok.Snapshot.Jobs

/-!
# Files

`mb_write_file_atomic` and `mb_read_file` of `fs.c`. The C library answers every
call on its own, and of what a stream was given any front part may have reached
the file when a call fails. The process may be killed between any two calls;
what it did to the file system until then stays.

Seen at the path alone, the calls of a write are the steps the jobs take.
-/

namespace Monoblok.Snapshot

open Patchbay

abbrev Path := Bytes

abbrev FileSystem := Path → Option Bytes

/-- The file that is filled first. -/
def tmpPath (path : Path) : Path := path ++ lit ".tmp"

/-! ## Writing -/

/-- The answer to a call: whether it succeeds, for `fwrite` the number of bytes
taken, and how much of what the stream was given is in the file afterwards. -/
structure CallAnswer where
  ok : Bool
  count : ℕ
  kept : ℕ

/-- The next call of `mb_write_file_atomic`; `ok` is the variable of that name. -/
inductive WriteCall where
  | malloc
  | fopen
  | fwrite
  | fflush (ok : Bool)
  | fclose (ok : Bool)
  | rename
  | remove
  | returned (ok : Bool)

variable (path : Path) (bytes : Bytes)

def callStep (a : CallAnswer) : WriteCall → FileSystem → WriteCall × FileSystem
  | .malloc, fs =>
    if sizeMax - 5 < path.length then (.returned false, fs)
    else if a.ok then (.fopen, fs) else (.returned false, fs)
  | .fopen, fs =>
    if a.ok then (.fwrite, Function.update fs (tmpPath path) (some []))
    else (.returned false, fs)
  | .fwrite, fs =>
    if bytes.isEmpty then (.fflush true, fs)
    else
      (.fflush (a.count == bytes.length),
        Function.update fs (tmpPath path) (some (bytes.take a.kept)))
  | .fflush false, fs => (.fclose false, fs)
  | .fflush true, fs =>
    if a.ok then (.fclose true, Function.update fs (tmpPath path) (some bytes))
    else (.fclose false, Function.update fs (tmpPath path) (some (bytes.take a.kept)))
  | .fclose ok, fs =>
    let fs := if ok then fs else Function.update fs (tmpPath path) (some (bytes.take a.kept))
    if ok && a.ok then (.rename, fs) else (.remove, fs)
  | .rename, fs =>
    match a.ok, fs (tmpPath path) with
    | true, some content =>
      (.returned true, Function.update (Function.update fs path (some content)) (tmpPath path) none)
    | _, _ => (.remove, fs)
  | .remove, fs =>
    (.returned false, if a.ok then Function.update fs (tmpPath path) none else fs)
  | .returned ok, fs => (.returned ok, fs)

/-- A write up to some call. -/
def callRun (answers : List CallAnswer) (w : WriteCall × FileSystem) : WriteCall × FileSystem :=
  answers.foldl (fun w a => callStep path bytes a w.1 w.2) w

/-- `mb_write_file_atomic` as far as the answers go. -/
def writeFileAtomic (answers : List CallAnswer) (fs : FileSystem) : WriteCall × FileSystem :=
  callRun path bytes answers (.malloc, fs)

/-! ## What a write does to the files -/

section Writing

variable {path bytes}

theorem tmpPath_ne (path : Path) : tmpPath path ≠ path := by
  intro h
  have hlen := congrArg List.length h
  simp [tmpPath, lit] at hlen

/-- The files in the middle of a write that began with the files `fs₀`. -/
structure Writing (path : Path) (bytes : Bytes) (fs₀ : FileSystem) (w : WriteCall × FileSystem) :
    Prop where
  target : w.1 ≠ .returned true → w.2 path = fs₀ path
  replaced : w.1 = .returned true → w.2 path = some bytes
  complete : w.1 = .fclose true ∨ w.1 = .rename → w.2 (tmpPath path) = some bytes
  others : ∀ q, q ≠ path → q ≠ tmpPath path → w.2 q = fs₀ q

theorem Writing.start (path : Path) (bytes : Bytes) (fs : FileSystem) :
    Writing path bytes fs (.malloc, fs) where
  target _ := rfl
  replaced h := by cases h
  complete h := by simp at h
  others _ _ _ := rfl

/-- A call that changes the new file at most and leaves the old one. -/
theorem Writing.next {fs₀ : FileSystem} {w : WriteCall × FileSystem} (h : Writing path bytes fs₀ w)
    (hw : w.1 ≠ .returned true) {call : WriteCall} (hcall : call ≠ .returned true)
    {fs : FileSystem} (hfs : ∀ q, q ≠ tmpPath path → fs q = w.2 q)
    (hcomplete : call = .fclose true ∨ call = .rename → fs (tmpPath path) = some bytes) :
    Writing path bytes fs₀ (call, fs) where
  target _ := (hfs path (tmpPath_ne path).symm).trans (h.target hw)
  replaced hret := absurd hret hcall
  complete := hcomplete
  others q hq hq' := (hfs q hq').trans (h.others q hq hq')

theorem update_tmp (fs : FileSystem) (x : Option Bytes) :
    ∀ q, q ≠ tmpPath path → Function.update fs (tmpPath path) x q = fs q :=
  fun _ hq => Function.update_of_ne hq x fs

theorem writing_step {fs₀ : FileSystem} {w : WriteCall × FileSystem} (a : CallAnswer)
    (h : Writing path bytes fs₀ w) : Writing path bytes fs₀ (callStep path bytes a w.1 w.2) := by
  obtain ⟨call, fs⟩ := w
  cases call with
  | malloc =>
    simp only [callStep]
    split_ifs <;> exact h.next (by simp) (by simp) (fun _ _ => rfl) (by simp)
  | fopen =>
    simp only [callStep]
    split_ifs
    · exact h.next (by simp) (by simp) (update_tmp fs _) (by simp)
    · exact h.next (by simp) (by simp) (fun _ _ => rfl) (by simp)
  | fwrite =>
    simp only [callStep]
    split_ifs
    · exact h.next (by simp) (by simp) (fun _ _ => rfl) (by simp)
    · exact h.next (by simp) (by simp) (update_tmp fs _) (by simp)
  | fflush ok =>
    cases ok with
    | false => exact h.next (by simp) (by simp) (fun _ _ => rfl) (by simp)
    | true =>
      simp only [callStep]
      split_ifs
      · exact h.next (by simp) (by simp) (update_tmp fs _) fun _ => Function.update_self _ _ _
      · exact h.next (by simp) (by simp) (update_tmp fs _) (by simp)
  | fclose ok =>
    simp only [callStep]
    cases ok with
    | false => exact h.next (by simp) (by simp) (update_tmp fs _) (by simp)
    | true =>
      have hcomplete := h.complete (.inl rfl)
      cases a.ok with
      | false => exact h.next (by simp) (by simp) (fun _ _ => rfl) (by simp)
      | true => exact h.next (by simp) (by simp) (fun _ _ => rfl) fun _ => hcomplete
  | rename =>
    have hcomplete : fs (tmpPath path) = some bytes := h.complete (.inr rfl)
    simp only [callStep, hcomplete]
    cases a.ok with
    | false => exact h.next (by simp) (by simp) (fun _ _ => rfl) (by simp)
    | true =>
      constructor
      · simp
      · intro _
        simp [Function.update_of_ne (tmpPath_ne path).symm]
      · simp
      · intro q hq hq'
        simp only [Function.update_of_ne hq', Function.update_of_ne hq]
        exact h.others q hq hq'
  | remove =>
    simp only [callStep]
    apply h.next (by simp) (by simp) _ (by simp)
    split_ifs
    · exact update_tmp fs _
    · exact fun _ _ => rfl
  | returned ok => exact h

theorem writing_run {fs₀ : FileSystem} {w : WriteCall × FileSystem} (answers : List CallAnswer)
    (h : Writing path bytes fs₀ w) : Writing path bytes fs₀ (callRun path bytes answers w) := by
  induction answers generalizing w with
  | nil => exact h
  | cons a answers ih => exact ih (writing_step a h)

/-- The calls that are still to come at most. -/
def WriteCall.remaining : WriteCall → ℕ
  | .malloc => 7
  | .fopen => 6
  | .fwrite => 5
  | .fflush _ => 4
  | .fclose _ => 3
  | .rename => 2
  | .remove => 1
  | .returned _ => 0

theorem remaining_step (a : CallAnswer) (call : WriteCall) (fs : FileSystem) :
    (callStep path bytes a call fs).1.remaining ≤ call.remaining - 1 := by
  cases call with
  | malloc => simp only [callStep]; split_ifs <;> simp [WriteCall.remaining]
  | fopen => simp only [callStep]; split_ifs <;> simp [WriteCall.remaining]
  | fwrite => simp only [callStep]; split_ifs <;> simp [WriteCall.remaining]
  | fflush ok =>
    cases ok with
    | false => simp [callStep, WriteCall.remaining]
    | true => simp only [callStep]; split_ifs <;> simp [WriteCall.remaining]
  | fclose ok => simp only [callStep]; split_ifs <;> simp [WriteCall.remaining]
  | rename => simp only [callStep]; split <;> simp [WriteCall.remaining]
  | remove => simp [callStep, WriteCall.remaining]
  | returned ok => simp [callStep, WriteCall.remaining]

theorem remaining_run (answers : List CallAnswer) (w : WriteCall × FileSystem) :
    (callRun path bytes answers w).1.remaining ≤ w.1.remaining - answers.length := by
  induction answers generalizing w with
  | nil => exact le_rfl
  | cons a answers ih =>
    have hstep : (callStep path bytes a w.1 w.2).1.remaining ≤ w.1.remaining - 1 :=
      remaining_step a w.1 w.2
    have hrest := ih (callStep path bytes a w.1 w.2)
    simp only [callRun, List.foldl_cons, List.length_cons] at hrest ⊢
    omega

theorem returned_of_remaining {call : WriteCall} (h : call.remaining = 0) :
    ∃ ok, call = .returned ok := by
  cases call with
  | returned ok => exact ⟨ok, rfl⟩
  | _ => simp [WriteCall.remaining] at h

/-! ## The steps of a job -/

/-- Where a job is that makes this call next. -/
def WriteCall.stage : WriteCall → WriteStage
  | .malloc | .fopen => .ready
  | .fwrite | .fflush _ | .fclose _ => .opened
  | .rename => .filled
  | .remove => .done false
  | .returned ok => .done ok

/-- The files of a write beside the disk of a job. -/
structure Refines (path : Path) (bytes : Bytes) (w : WriteCall × FileSystem)
    (d : WriteStage × Disk) : Prop where
  stage : d.1 = w.1.stage
  file : d.2.file = w.2 path
  tmp : w.1 = .rename → d.2.tmp = some bytes

def jobRun (bytes : Bytes) (oks : List Bool) (d : WriteStage × Disk) : WriteStage × Disk :=
  oks.foldl (fun d ok => writeStep ok bytes d.1 d.2) d

/-- A call that the job does not see, or that is a step of it. -/
theorem refines_step {fs₀ : FileSystem} {w : WriteCall × FileSystem} {d : WriteStage × Disk}
    (a : CallAnswer) (hw : Writing path bytes fs₀ w) (h : Refines path bytes w d) :
    ∃ oks, Refines path bytes (callStep path bytes a w.1 w.2) (jobRun bytes oks d) := by
  obtain ⟨call, fs⟩ := w
  obtain ⟨stage, disk⟩ := d
  obtain ⟨hstage, hfile, htmp⟩ := h
  have hkept : ∀ x, Function.update fs (tmpPath path) x path = fs path :=
    fun x => update_tmp fs x path (tmpPath_ne path).symm
  cases call with
  | malloc =>
    cases hstage
    simp only [callStep]
    split_ifs
    · exact ⟨[false], rfl, hfile, by simp⟩
    · exact ⟨[], rfl, hfile, by simp⟩
    · exact ⟨[false], rfl, hfile, by simp⟩
  | fopen =>
    cases hstage
    simp only [callStep]
    split_ifs
    · exact ⟨[true], rfl, hfile.trans (hkept _).symm, by simp⟩
    · exact ⟨[false], rfl, hfile, by simp⟩
  | fwrite =>
    cases hstage
    simp only [callStep]
    split_ifs
    · exact ⟨[], rfl, hfile, by simp⟩
    · exact ⟨[], rfl, hfile.trans (hkept _).symm, by simp⟩
  | fflush ok =>
    cases hstage
    cases ok with
    | false => exact ⟨[], rfl, hfile, by simp [callStep]⟩
    | true =>
      simp only [callStep]
      split_ifs <;> exact ⟨[], rfl, hfile.trans (hkept _).symm, by simp⟩
  | fclose ok =>
    cases hstage
    simp only [callStep]
    cases ok with
    | false => exact ⟨[false], rfl, hfile.trans (hkept _).symm, by simp⟩
    | true =>
      cases a.ok with
      | false => exact ⟨[false], rfl, hfile, by simp⟩
      | true => exact ⟨[true], rfl, hfile, fun _ => rfl⟩
  | rename =>
    cases hstage
    have hcomplete : fs (tmpPath path) = some bytes := hw.complete (.inr rfl)
    have hdisk : disk.tmp = some bytes := htmp rfl
    simp only [callStep, hcomplete]
    cases a.ok with
    | false =>
      refine ⟨[false], ?_, ?_, by simp⟩
      · simp [jobRun, writeStep, WriteCall.stage]
      · simpa [jobRun, writeStep, WriteCall.stage] using hfile
    | true =>
      refine ⟨[true], ?_, ?_, by simp⟩
      · simp [jobRun, writeStep, WriteCall.stage, hdisk]
      · simp [jobRun, writeStep, hdisk, Function.update_of_ne (tmpPath_ne path).symm]
  | remove =>
    cases hstage
    refine ⟨[], rfl, ?_, by simp [callStep]⟩
    simp only [callStep, jobRun, List.foldl_nil]
    split_ifs
    · exact hfile.trans (hkept _).symm
    · exact hfile
  | returned ok => exact ⟨[], hstage, hfile, htmp⟩

theorem refines_run {fs₀ : FileSystem} {w : WriteCall × FileSystem} {d : WriteStage × Disk}
    (answers : List CallAnswer) (hw : Writing path bytes fs₀ w) (h : Refines path bytes w d) :
    ∃ oks, Refines path bytes (callRun path bytes answers w) (jobRun bytes oks d) := by
  induction answers generalizing w d with
  | nil => exact ⟨[], h⟩
  | cons a answers ih =>
    obtain ⟨oks, hstep⟩ := refines_step a hw h
    obtain ⟨oks', hrun⟩ := ih (writing_step a hw) hstep
    refine ⟨oks ++ oks', ?_⟩
    rwa [jobRun, List.foldl_append]

/-- A write that is stopped anywhere leaves the old file or, once it has returned
successfully, the new one, and no other file is touched but the one beside it. It
returns after seven calls, and what it does to the file are steps of a job. -/
theorem file_replaced_or_kept (path : Path) (bytes : Bytes) (fs : FileSystem)
    (answers : List CallAnswer) (tmp : Option Bytes) :
    ((writeFileAtomic path bytes answers fs).1 = .returned true →
      (writeFileAtomic path bytes answers fs).2 path = some bytes) ∧
    ((writeFileAtomic path bytes answers fs).1 ≠ .returned true →
      (writeFileAtomic path bytes answers fs).2 path = fs path) ∧
    (∀ q, q ≠ path → q ≠ tmpPath path → (writeFileAtomic path bytes answers fs).2 q = fs q) ∧
    (7 ≤ answers.length → ∃ ok, (writeFileAtomic path bytes answers fs).1 = .returned ok) ∧
    ∃ oks tmp', jobRun bytes oks (.ready, ⟨fs path, tmp⟩) =
      ((writeFileAtomic path bytes answers fs).1.stage,
        ⟨(writeFileAtomic path bytes answers fs).2 path, tmp'⟩) := by
  have hw := writing_run answers (Writing.start path bytes fs)
  refine ⟨hw.replaced, hw.target, hw.others, ?_, ?_⟩
  · intro hlen
    apply returned_of_remaining
    have hrun : (callRun path bytes answers (.malloc, fs)).1.remaining ≤ 7 - answers.length :=
      remaining_run answers (.malloc, fs)
    unfold writeFileAtomic
    omega
  · obtain ⟨oks, hstage, hfile, -⟩ := refines_run answers (Writing.start path bytes fs)
      (d := (.ready, ⟨fs path, tmp⟩)) ⟨rfl, rfl, fun h => by cases h⟩
    refine ⟨oks, (jobRun bytes oks (.ready, ⟨fs path, tmp⟩)).2.tmp, ?_⟩
    unfold writeFileAtomic
    rw [← hstage, ← hfile]

end Writing

/-! ## Reading -/

/-- The answers to the calls in one round of `mb_read_file`: the bytes `fread`
delivers when the stream fails, and whether the buffer can grow. -/
structure ReadAnswer where
  failed : Option ℕ
  memory : Bool

/-- The size of the buffer `fread` fills. -/
def readChunk : ℕ := 4096

inductive ReadResult where
  | missing
  | failed
  | read (content : Bytes)
  deriving DecidableEq

/-- The loop of `mb_read_file` on what is left of the file; the end of the file
is seen by the first `fread` that is not filled. -/
def readLoop (answers : ℕ → ReadAnswer) : ℕ → ℕ → Bytes → Bytes → Option Bytes
  | 0, _, _, _ => none
  | fuel + 1, i, rest, out =>
    let chunk := (rest.take readChunk).take ((answers i).failed.getD readChunk)
    if !chunk.isEmpty && !(answers i).memory then none
    else if (answers i).failed.isSome then none
    else if chunk.length < readChunk then some (out ++ chunk)
    else readLoop answers fuel (i + 1) (rest.drop readChunk) (out ++ chunk)

/-- The environment of `mb_read_file`: whether the file can be opened and closed. -/
structure ReadEnv where
  fopen : Bool
  rounds : ℕ → ReadAnswer
  fclose : Bool

/-- `mb_read_file` with an empty buffer, on the content of the file. -/
def readFile (E : ReadEnv) : Option Bytes → ReadResult
  | none => .missing
  | some content =>
    if !E.fopen then .failed
    else
      match readLoop E.rounds (content.length / readChunk + 1) 0 content [] with
      | none => .failed
      | some out => if E.fclose then .read out else .failed

/-- A read that succeeds has the whole file, however it comes in. -/
theorem readLoop_content {answers : ℕ → ReadAnswer} (fuel i : ℕ) {rest out content : Bytes}
    (h : readLoop answers fuel i rest out = some content) : content = out ++ rest := by
  induction fuel generalizing i rest out with
  | zero => cases h
  | succ fuel ih =>
    simp only [readLoop] at h
    split_ifs at h with hmemory hfailed hshort
    · have hnone : (answers i).failed = none := Option.not_isSome_iff_eq_none.mp hfailed
      simp only [hnone, Option.getD_none, List.take_take, min_self] at h hshort
      have hrest : rest.take readChunk = rest := by
        apply List.take_of_length_le
        rw [List.length_take] at hshort
        omega
      simpa [hrest] using h.symm
    · have hnone : (answers i).failed = none := Option.not_isSome_iff_eq_none.mp hfailed
      simp only [hnone, Option.getD_none, List.take_take, min_self] at h
      rw [ih (i + 1) h, List.append_assoc, List.take_append_drop]

theorem readLoop_isSome {answers : ℕ → ReadAnswer}
    (hanswers : ∀ i, (answers i).failed = none ∧ (answers i).memory = true) (fuel i : ℕ)
    {rest out : Bytes} (hfuel : rest.length / readChunk < fuel) :
    (readLoop answers fuel i rest out).isSome = true := by
  induction fuel generalizing i rest out with
  | zero => exact absurd hfuel (Nat.not_lt_zero _)
  | succ fuel ih =>
    simp only [readLoop, (hanswers i).1, (hanswers i).2, Option.getD_none, Bool.not_true,
      Bool.and_false, Option.isSome_none, Bool.false_eq_true, if_false, List.take_take, min_self]
    split_ifs with hshort
    · rfl
    · apply ih
      rw [List.length_drop]
      have hlong : readChunk ≤ rest.length := by
        rw [List.length_take] at hshort
        omega
      rw [Nat.div_eq_sub_div (by decide) hlong] at hfuel
      omega

/-- The calls that read a file all succeed. -/
def ReadEnv.Succeeds (E : ReadEnv) : Prop :=
  E.fopen = true ∧ (∀ i, (E.rounds i).failed = none ∧ (E.rounds i).memory = true) ∧ E.fclose = true

theorem readFile_eq_read {E : ReadEnv} {file : Option Bytes} {content : Bytes}
    (h : readFile E file = .read content) : file = some content := by
  unfold readFile at h
  cases file with
  | none => cases h
  | some bytes =>
    cases hloop : readLoop E.rounds (bytes.length / readChunk + 1) 0 bytes [] with
    | none =>
      simp only [hloop, ite_self] at h
      cases h
    | some out =>
      simp only [hloop] at h
      split_ifs at h
      cases h
      rw [readLoop_content _ _ hloop, List.nil_append]

theorem readFile_of_succeeds {E : ReadEnv} (h : E.Succeeds) (content : Bytes) :
    readFile E (some content) = .read content := by
  obtain ⟨hopen, hrounds, hclose⟩ := h
  have hsome : (readLoop E.rounds (content.length / readChunk + 1) 0 content []).isSome = true :=
    readLoop_isSome hrounds (content.length / readChunk + 1) 0 (Nat.lt_succ_self _)
  obtain ⟨out, hout⟩ := Option.isSome_iff_exists.mp hsome
  have hcontent : out = content := by simpa using readLoop_content _ _ hout
  simp [readFile, hopen, hclose, hout, hcontent]

/-! ## Loading a file -/

variable {N : Type} [Number N]

/-- `mb_snapshot_load`: no file is no snapshot, and a file that cannot be read is
an error. -/
def snapshotLoadFile (E : ReadEnv) (file : Option Bytes) (r : Router) (p : Option (Program N)) :
    Option (Loading N) :=
  match readFile E file with
  | .missing => some ⟨r, p, ⟨0, 0⟩⟩
  | .failed => none
  | .read content => snapshotLoad content r p

end Monoblok.Snapshot
