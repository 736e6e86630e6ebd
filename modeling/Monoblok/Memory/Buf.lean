import Monoblok.Lib.Area
import Monoblok.Memory.Reserve

/-!
# Byte buffers

`buf.c` over the memory behind the pointer. A copy outside of the allocated
bytes is undefined, and so is a wrapping size. `mbBufReserve_spec` holds of any
buffer; the run lemma follows a pool of buffers through any operations.
-/

namespace Monoblok.Memory

open CheckedSize

/-- `mb_buf`; the pointer stands for the bytes allocated behind it. -/
structure Buf where
  ptr : Option Bytes
  len : ℕ
  cap : ℕ

/-- `(mb_buf){0}`. -/
def Buf.zero : Buf := ⟨none, 0, 0⟩

def Buf.area (buf : Buf) : Bytes := buf.ptr.getD []

/-- The bytes the buffer holds. -/
def Buf.contents (buf : Buf) : Bytes := buf.area.take buf.len

/-- Answers requests for a number of bytes: with nothing, or with memory whose
new bytes hold whatever they did before. -/
abbrev Grant := ℕ → Option (ℕ → UInt8)

def realloc (answer : Grant) (ptr : Option Bytes) (bytes : ℕ) : Option Bytes :=
  (answer bytes).map fun old => Area.resize (ptr.getD []) bytes old

/-- `sizeof buf->ptr[0]`. -/
def byteSize : ℕ := 1

structure BufReserved where
  ok : Bool
  buf : Buf
  asked : Option ℕ

def mbBufReserve (answer : Grant) (buf : Buf) (additional : ℕ) : Option BufReserved :=
  (sub sizeMax buf.len).bind fun left =>
    if left < additional then some ⟨false, buf, none⟩
    else
      (add sizeMax buf.len additional).bind fun need =>
        if need ≤ buf.cap then some ⟨true, buf, none⟩
        else
          (double sizeMax need 65 (if buf.cap = 0 then 1024 else buf.cap)).bind fun next =>
            if sizeMax / byteSize < next then some ⟨false, buf, none⟩
            else
              (mul sizeMax next byteSize).map fun bytes =>
                match realloc answer buf.ptr bytes with
                | none => ⟨false, buf, some bytes⟩
                | some ptr => ⟨true, { buf with ptr := some ptr, cap := next }, some bytes⟩

/-- `memcpy (buf->ptr + off, src, n)` for the `n` bytes of `src`. -/
def Buf.copyIn (buf : Buf) (off : ℕ) (src : Bytes) : Option Buf :=
  (buf.ptr.bind fun mem => Area.store mem off src).map fun mem => { buf with ptr := some mem }

/-- `mb_buf_append`; no source is a null pointer. -/
def mbBufAppend (answer : Grant) (buf : Buf) (src : Option Bytes) (len : ℕ) : Option (Buf × Bool) :=
  if len = 0 then some (buf, true)
  else
    match src with
    | none => some (buf, false)
    | some src =>
      (mbBufReserve answer buf len).bind fun r =>
        if !r.ok then some (r.buf, false)
        else
          (Area.load src 0 len).bind fun bytes =>
            (r.buf.copyIn r.buf.len bytes).bind fun buf =>
              (add sizeMax buf.len len).map fun len => ({ buf with len := len }, true)

def mbBufAppendByte (answer : Grant) (buf : Buf) (byte : UInt8) : Option (Buf × Bool) :=
  (mbBufReserve answer buf 1).bind fun r =>
    if !r.ok then some (r.buf, false)
    else
      (r.buf.copyIn r.buf.len [byte]).bind fun buf =>
        (add sizeMax buf.len 1).map fun len => ({ buf with len := len }, true)

/-- `mb_buf_consume`: `memmove (buf->ptr, buf->ptr + n, buf->len - n)`. -/
def mbBufConsume (buf : Buf) (n : ℕ) : Option Buf :=
  if buf.len ≤ n then some { buf with len := 0 }
  else
    (sub buf.len n).bind fun rest =>
      (buf.ptr.bind fun mem => Area.load mem n rest).bind fun bytes =>
        (buf.copyIn 0 bytes).map fun buf => { buf with len := rest }

def mbBufClear (buf : Buf) : Buf := { buf with len := 0 }

/-! ## Pools of buffers -/

/-- A call on some of the buffers; memory answers each of them anew. -/
inductive BufOp where
  | reserve (i : ℕ) (answer : Grant) (additional : ℕ)
  | append (i : ℕ) (answer : Grant) (src : Option Bytes) (len : ℕ)
  | appendByte (i : ℕ) (answer : Grant) (byte : UInt8)
  | consume (i n : ℕ)
  | clear (i : ℕ)
  | free (i : ℕ)
  | swap (i j : ℕ)

/-- A source that is there has as many bytes as the call says. -/
def BufOp.Legal : BufOp → Prop
  | .append _ _ src len => ∀ s, src = some s → s.length = len
  | _ => True

/-- One call, with what it returns; a call without a result counts as successful. -/
def bufStep (p : ℕ → Buf) : BufOp → Option ((ℕ → Buf) × Bool)
  | .reserve i answer additional =>
    (mbBufReserve answer (p i) additional).map fun r => (Function.update p i r.buf, r.ok)
  | .append i answer src len =>
    (mbBufAppend answer (p i) src len).map fun r => (Function.update p i r.1, r.2)
  | .appendByte i answer byte =>
    (mbBufAppendByte answer (p i) byte).map fun r => (Function.update p i r.1, r.2)
  | .consume i n => (mbBufConsume (p i) n).map fun buf => (Function.update p i buf, true)
  | .clear i => some (Function.update p i (mbBufClear (p i)), true)
  | .free i => some (Function.update p i Buf.zero, true)
  | .swap i j => some (Function.update (Function.update p i (p j)) j (p i), true)

def runBufs : List BufOp → (ℕ → Buf) → Option ((ℕ → Buf) × List Bool)
  | [], p => some (p, [])
  | op :: ops, p =>
    (bufStep p op).bind fun r => (runBufs ops r.1).map fun q => (q.1, r.2 :: q.2)

/-- What a call that returned `ok` does to the byte strings the buffers stand for. -/
def refStep (s : ℕ → Bytes) (op : BufOp) (ok : Bool) : ℕ → Bytes :=
  match op with
  | .reserve _ _ _ => s
  | .append i _ src _ => Function.update s i (s i ++ if ok then src.getD [] else [])
  | .appendByte i _ byte => Function.update s i (s i ++ if ok then [byte] else [])
  | .consume i n => Function.update s i ((s i).drop n)
  | .clear i => Function.update s i []
  | .free i => Function.update s i []
  | .swap i j => Function.update (Function.update s i (s j)) j (s i)

def refRun : List BufOp → List Bool → (ℕ → Bytes) → ℕ → Bytes
  | op :: ops, ok :: oks, s => refRun ops oks (refStep s op ok)
  | _, _, s => s

/-! ## Reserving -/

/-- What an outcome promises, whatever the buffer was. -/
structure BufReserveSpec (answer : Grant) (buf : Buf) (additional : ℕ) (r : BufReserved) : Prop where
  room : r.ok = true → buf.len + additional ≤ r.buf.cap ∧ r.buf.cap ≤ sizeMax
  fits : ∀ bytes, r.asked = some bytes → bytes ≤ sizeMax
  bytes : ∀ bytes, r.ok = true → r.asked = some bytes → bytes = r.buf.cap * byteSize ∧
    r.buf.ptr.isSome = true ∧ r.buf.ptr = realloc answer buf.ptr bytes
  kept : r.ok = false ∨ r.asked = none → r.buf = buf
  len : r.buf.len = buf.len

theorem mbBufReserve_spec (answer : Grant) {buf : Buf} (additional : ℕ) (hlen : buf.len ≤ sizeMax)
    (hcap : buf.cap ≤ sizeMax) :
    ∃ r, mbBufReserve answer buf additional = some r ∧ BufReserveSpec answer buf additional r := by
  have hfailed : ∀ asked : Option ℕ, (∀ bytes, asked = some bytes → bytes ≤ sizeMax) →
      BufReserveSpec answer buf additional ⟨false, buf, asked⟩ := by
    intro asked hasked
    exact ⟨by simp, hasked, by simp, fun _ => rfl, rfl⟩
  unfold mbBufReserve
  rw [sub_of_le hlen, Option.bind_some]
  by_cases hroom : sizeMax - buf.len < additional
  · simp only [hroom, if_true]
    exact ⟨_, rfl, hfailed none (by simp)⟩
  · have hneed : buf.len + additional ≤ sizeMax := by omega
    simp only [hroom, if_false, add_of_le hneed, Option.bind_some]
    by_cases hfits : buf.len + additional ≤ buf.cap
    · simp only [hfits, if_true]
      exact ⟨_, rfl, fun _ => ⟨hfits, hcap⟩, by simp, by simp, fun _ => rfl, rfl⟩
    · have hstart : (if buf.cap = 0 then 1024 else buf.cap) ≤ sizeMax := by
        split_ifs
        · simp [sizeMax]
        · exact hcap
      have hfuel : buf.len + additional ≤ 2 ^ 64 * (if buf.cap = 0 then 1024 else buf.cap) := by
        have hmax : sizeMax ≤ 2 ^ 64 := by simp [sizeMax]
        split_ifs <;> omega
      obtain ⟨next, hnext, hge, -, hmax⟩ := double_spec hneed 64 _ hstart hfuel
      have hsmall : ¬sizeMax / byteSize < next := by simpa [byteSize] using hmax
      have hbytes : next * byteSize ≤ sizeMax := by simpa [byteSize] using hmax
      simp only [hfits, hsmall, if_false, hnext, Option.bind_some, mul_of_le hbytes, Option.map_some]
      cases hanswer : realloc answer buf.ptr (next * byteSize) with
      | none => exact ⟨_, rfl, hfailed _ (by simpa using hbytes)⟩
      | some ptr =>
        refine ⟨_, rfl, fun _ => ⟨hge, hmax⟩, by simpa using hbytes, ?_, by simp, rfl⟩
        intro bytes _ hasked
        cases hasked
        exact ⟨rfl, rfl, hanswer.symm⟩

/-! ## Buffers that own what they claim -/

/-- The capacity is what was allocated, and the length is within it. -/
structure Buf.Ok (buf : Buf) : Prop where
  area : buf.area.length = buf.cap
  len : buf.len ≤ buf.cap
  cap : buf.cap ≤ sizeMax

theorem Buf.ok_zero : Buf.zero.Ok := ⟨rfl, le_rfl, Nat.zero_le _⟩

theorem Buf.Ok.reserve {buf : Buf} (h : buf.Ok) (answer : Grant) (additional : ℕ) :
    ∃ r, mbBufReserve answer buf additional = some r ∧ r.buf.Ok ∧
      r.buf.contents = buf.contents ∧ r.buf.len = buf.len ∧
      (r.ok = true → buf.len + additional ≤ r.buf.cap) := by
  obtain ⟨r, hr, hspec⟩ := mbBufReserve_spec answer additional (h.len.trans h.cap) h.cap
  refine ⟨r, hr, ?_⟩
  by_cases hkept : r.ok = false ∨ r.asked = none
  · have hsame := hspec.kept hkept
    exact ⟨hsame ▸ h, congrArg Buf.contents hsame, hspec.len, fun hok => (hspec.room hok).1⟩
  · rw [not_or, Bool.not_eq_false] at hkept
    obtain ⟨hok, hasked⟩ := hkept
    obtain ⟨bytes, hbytes⟩ := Option.ne_none_iff_exists'.mp hasked
    obtain ⟨hcap, hsome, hptr⟩ := hspec.bytes bytes hok hbytes
    obtain ⟨hroom, hmax⟩ := hspec.room hok
    have hlen := hspec.len
    rw [byteSize, Nat.mul_one] at hcap
    subst hcap
    obtain ⟨mem, hmem⟩ := Option.isSome_iff_exists.mp hsome
    obtain ⟨old, -, hold⟩ := Option.map_eq_some_iff.mp (hptr.symm.trans hmem)
    have harea : r.buf.area = Area.resize buf.area r.buf.cap old := by
      rw [Buf.area, hmem]
      exact hold.symm
    have hshort : buf.len ≤ buf.area.length := h.area ▸ h.len
    have hwithin : buf.len ≤ r.buf.cap := by omega
    constructor
    · constructor
      · rw [harea, Area.length_resize]
      · rw [hlen]
        exact hwithin
      · exact hmax
    · have hsame : r.buf.contents = buf.contents := by
        rw [Buf.contents, Buf.contents, hlen, harea, Area.take_resize hwithin hshort]
      exact ⟨hsame, hlen, fun _ => hroom⟩

theorem Buf.length_contents {buf : Buf} (h : buf.Ok) : buf.contents.length = buf.len := by
  have hlen := h.len
  rw [Buf.contents, List.length_take, h.area]
  omega

/-- Bytes written behind the contents, and counted. -/
theorem Buf.Ok.extend {buf : Buf} (h : buf.Ok) {src : Bytes} (hpos : src ≠ [])
    (hroom : buf.len + src.length ≤ buf.cap) :
    ∃ buf', ((buf.copyIn buf.len src).bind fun b => (add sizeMax b.len src.length).map fun len =>
        ({ b with len := len }, true)) = some (buf', true) ∧
      buf'.Ok ∧ buf'.contents = buf.contents ++ src := by
  have hne : 0 < src.length := List.length_pos_iff.mpr hpos
  have harea := h.area
  have hmax : buf.len + src.length ≤ sizeMax := hroom.trans h.cap
  cases hptr : buf.ptr with
  | none =>
    simp only [Buf.area, hptr, Option.getD_none, List.length_nil] at harea
    omega
  | some mem =>
    simp only [Buf.area, hptr, Option.getD_some] at harea
    have hfits : buf.len + src.length ≤ mem.length := by omega
    obtain ⟨mem', hstore, hlength, htake⟩ := Area.store_spec hfits
    refine ⟨⟨some mem', buf.len + src.length, buf.cap⟩, ?_, ⟨?_, hroom, h.cap⟩, ?_⟩
    · simp [Buf.copyIn, hptr, hstore, add_of_le hmax]
    · exact hlength.trans harea
    · simp only [Buf.contents, Buf.area, hptr, Option.getD_some]
      exact htake

theorem Buf.Ok.append {buf : Buf} (h : buf.Ok) (answer : Grant) {src : Option Bytes} {len : ℕ}
    (hsrc : ∀ s, src = some s → s.length = len) :
    ∃ buf' ok, mbBufAppend answer buf src len = some (buf', ok) ∧ buf'.Ok ∧
      buf'.contents = buf.contents ++ if ok then src.getD [] else [] := by
  by_cases hzero : len = 0
  · refine ⟨buf, true, by simp [mbBufAppend, hzero], h, ?_⟩
    cases src with
    | none => simp
    | some s =>
      have hnil : s = [] := List.length_eq_zero_iff.mp ((hsrc s rfl).trans hzero)
      simp [hnil]
  · cases src with
    | none => exact ⟨buf, false, by simp [mbBufAppend, hzero], h, by simp⟩
    | some s =>
      have hs := hsrc s rfl
      subst hs
      obtain ⟨⟨ok, buf₁, asked⟩, hr, hok₁, hsame, hlen, hroom⟩ := h.reserve answer s.length
      dsimp only at hok₁ hsame hlen hroom
      unfold mbBufAppend
      simp only [hzero, if_false, hr, Option.bind_some]
      cases ok with
      | false => exact ⟨buf₁, false, by simp, hok₁, by simp [hsame]⟩
      | true =>
        have hne : s ≠ [] := fun hnil => hzero (by simp [hnil])
        have hfits : buf₁.len + s.length ≤ buf₁.cap := hlen ▸ hroom rfl
        obtain ⟨buf₂, hextend, hok₂, hcontents⟩ := hok₁.extend hne hfits
        have hload : Area.load s 0 s.length = some s := by
          rw [Area.load_of_le (by omega), List.drop_zero, List.take_length]
        simp only [Bool.not_true, Bool.false_eq_true, if_false, hload, Option.bind_some]
        exact ⟨buf₂, true, hextend, hok₂, by simp [hcontents, hsame]⟩

theorem Buf.Ok.appendByte {buf : Buf} (h : buf.Ok) (answer : Grant) (byte : UInt8) :
    ∃ buf' ok, mbBufAppendByte answer buf byte = some (buf', ok) ∧ buf'.Ok ∧
      buf'.contents = buf.contents ++ if ok then [byte] else [] := by
  obtain ⟨⟨ok, buf₁, asked⟩, hr, hok₁, hsame, hlen, hroom⟩ := h.reserve answer 1
  dsimp only at hok₁ hsame hlen hroom
  unfold mbBufAppendByte
  simp only [hr, Option.bind_some]
  cases ok with
  | false => exact ⟨buf₁, false, by simp, hok₁, by simp [hsame]⟩
  | true =>
    have hfits : buf₁.len + [byte].length ≤ buf₁.cap := hlen ▸ hroom rfl
    obtain ⟨buf₂, hextend, hok₂, hcontents⟩ := hok₁.extend (List.cons_ne_nil byte []) hfits
    exact ⟨buf₂, true, hextend, hok₂, by simp [hcontents, hsame]⟩

theorem Buf.Ok.consume {buf : Buf} (h : buf.Ok) (n : ℕ) :
    ∃ buf', mbBufConsume buf n = some buf' ∧ buf'.Ok ∧ buf'.contents = buf.contents.drop n := by
  have harea := h.area
  have hlen := h.len
  unfold mbBufConsume
  by_cases hall : buf.len ≤ n
  · rw [if_pos hall]
    refine ⟨_, rfl, ⟨h.area, Nat.zero_le _, h.cap⟩, ?_⟩
    rw [List.drop_eq_nil_of_le (by rw [Buf.length_contents h]; exact hall)]
    rfl
  · rw [if_neg hall]
    cases hptr : buf.ptr with
    | none =>
      simp only [Buf.area, hptr, Option.getD_none, List.length_nil] at harea
      omega
    | some mem =>
      simp only [Buf.area, hptr, Option.getD_some] at harea
      have hread : n + (buf.len - n) ≤ mem.length := by omega
      have hmoved : 0 + ((mem.drop n).take (buf.len - n)).length ≤ mem.length := by
        simp only [List.length_take, List.length_drop]
        omega
      have hcount : ((mem.drop n).take (buf.len - n)).length = buf.len - n := by
        simp only [List.length_take, List.length_drop]
        omega
      obtain ⟨mem', hstore, hlength, htake⟩ := Area.store_spec hmoved
      rw [hcount, Nat.zero_add, List.take_zero, List.nil_append] at htake
      refine ⟨⟨some mem', buf.len - n, buf.cap⟩, ?_, ⟨?_, ?_, h.cap⟩, ?_⟩
      · simp [sub_of_le (Nat.le_of_not_le hall), Area.load_of_le hread, Buf.copyIn, hptr, hstore]
      · exact hlength.trans harea
      · exact (Nat.sub_le _ _).trans hlen
      · simp only [Buf.contents, Buf.area, hptr, Option.getD_some, List.drop_take]
        exact htake

/-! ## Runs -/

/-- Every buffer owns what it claims and holds its byte string. -/
def Follows (p : ℕ → Buf) (s : ℕ → Bytes) : Prop := ∀ i, (p i).Ok ∧ (p i).contents = s i

theorem Follows.update {p : ℕ → Buf} {s : ℕ → Bytes} (h : Follows p s) (i : ℕ) {buf : Buf}
    {bytes : Bytes} (hok : buf.Ok) (hcontents : buf.contents = bytes) :
    Follows (Function.update p i buf) (Function.update s i bytes) := by
  intro j
  by_cases hj : j = i
  · subst hj
    simpa using ⟨hok, hcontents⟩
  · simpa [hj] using h j

theorem Follows.step {p : ℕ → Buf} {s : ℕ → Bytes} (h : Follows p s) {op : BufOp} (hop : op.Legal) :
    ∃ p' ok, bufStep p op = some (p', ok) ∧ Follows p' (refStep s op ok) := by
  cases op with
  | reserve i answer additional =>
    obtain ⟨hok, hs⟩ := h i
    obtain ⟨r, hr, hok', hsame, -, -⟩ := hok.reserve answer additional
    refine ⟨Function.update p i r.buf, r.ok, by simp only [bufStep, hr, Option.map_some], ?_⟩
    have hnext := h.update i hok' (hsame.trans hs)
    rwa [Function.update_eq_self] at hnext
  | append i answer src len =>
    obtain ⟨hok, hs⟩ := h i
    obtain ⟨buf', ok, hr, hok', hcontents⟩ := hok.append answer hop
    exact ⟨_, ok, by simp only [bufStep, hr, Option.map_some], h.update i hok' (hs ▸ hcontents)⟩
  | appendByte i answer byte =>
    obtain ⟨hok, hs⟩ := h i
    obtain ⟨buf', ok, hr, hok', hcontents⟩ := hok.appendByte answer byte
    exact ⟨_, ok, by simp only [bufStep, hr, Option.map_some], h.update i hok' (hs ▸ hcontents)⟩
  | consume i n =>
    obtain ⟨hok, hs⟩ := h i
    obtain ⟨buf', hr, hok', hcontents⟩ := hok.consume n
    exact ⟨_, true, by simp only [bufStep, hr, Option.map_some], h.update i hok' (hs ▸ hcontents)⟩
  | clear i =>
    have hok := (h i).1
    exact ⟨_, true, rfl, h.update i ⟨hok.area, Nat.zero_le _, hok.cap⟩ rfl⟩
  | free i => exact ⟨_, true, rfl, h.update i Buf.ok_zero rfl⟩
  | swap i j =>
    have hi := h i
    have hj := h j
    exact ⟨_, true, rfl, (h.update i hj.1 hj.2).update j hi.1 hi.2⟩

theorem Follows.run {ops : List BufOp} (hops : ∀ op ∈ ops, op.Legal) {p : ℕ → Buf} {s : ℕ → Bytes}
    (h : Follows p s) :
    ∃ p' oks, runBufs ops p = some (p', oks) ∧ oks.length = ops.length ∧
      Follows p' (refRun ops oks s) := by
  induction ops generalizing p s with
  | nil => exact ⟨p, [], rfl, rfl, h⟩
  | cons op ops ih =>
    obtain ⟨hop, hrest⟩ := List.forall_mem_cons.mp hops
    obtain ⟨p₁, ok, hstep, h₁⟩ := h.step hop
    obtain ⟨p₂, oks, hrun, hlen, h₂⟩ := ih hrest h₁
    refine ⟨p₂, ok :: oks, ?_, by simp [hlen], h₂⟩
    simp only [runBufs, hstep, Option.bind_some, hrun, Option.map_some]

/-- Growing never ends with less than was asked for, and a pool of buffers holds
what was appended to it and not consumed. -/
theorem never_under_allocates :
    (∀ (P : Type) (grow : Option P → ℕ → Option P) (items : Option (Option P)) (cap : Option ℕ)
      (needed elemSize initialCap : ℕ), (∀ c, cap = some c → c ≤ sizeMax) → needed ≤ sizeMax →
      initialCap ≤ sizeMax → ∃ r, mbArrayReserve grow items cap needed elemSize initialCap = some r ∧
        ReserveSpec items cap needed elemSize r) ∧
    (∀ (answer : Grant) (buf : Buf) (additional : ℕ), buf.len ≤ sizeMax → buf.cap ≤ sizeMax →
      ∃ r, mbBufReserve answer buf additional = some r ∧
        BufReserveSpec answer buf additional r) ∧
    ∀ ops : List BufOp, (∀ op ∈ ops, op.Legal) →
      ∃ p oks, runBufs ops (fun _ => Buf.zero) = some (p, oks) ∧ oks.length = ops.length ∧
        ∀ i, (p i).len ≤ (p i).cap ∧ (p i).contents = refRun ops oks (fun _ => []) i := by
  refine ⟨?_, ?_, ?_⟩
  · intro P grow items cap needed elemSize initialCap hcap hneeded hinitial
    exact mbArrayReserve_spec grow items hcap hneeded hinitial
  · intro answer buf additional hlen hcap
    exact mbBufReserve_spec answer additional hlen hcap
  · intro ops hops
    have hzero : Follows (fun _ => Buf.zero) (fun _ => []) := fun i => ⟨Buf.ok_zero, rfl⟩
    obtain ⟨p, oks, hrun, hlen, hp⟩ := hzero.run hops
    exact ⟨p, oks, hrun, hlen, fun i => ⟨(hp i).1.len, (hp i).2⟩⟩

/-- A request near the top of the size range, a buffer that cannot take any more,
and a swap between an append and a consume. -/
theorem never_under_allocates_extremes :
    (∃ r, mbArrayReserve (fun _ _ => some ()) (some none) (some 3) (sizeMax - 1) 1 4 = some r ∧
      ReserveSpec (some none) (some 3) (sizeMax - 1) 1 r) ∧
    (∃ r, mbBufReserve (fun _ => none) ⟨none, sizeMax, 0⟩ 1 = some r ∧
      BufReserveSpec (fun _ => none) ⟨none, sizeMax, 0⟩ 1 r) ∧
    ∃ p oks, runBufs [.append 0 (fun _ => some fun _ => 0) (some [1, 2, 3]) 3, .swap 0 1,
        .consume 1 2] (fun _ => Buf.zero) = some (p, oks) ∧ oks.length = 3 ∧
      ∀ i, (p i).len ≤ (p i).cap ∧ (p i).contents =
        refRun [.append 0 (fun _ => some fun _ => 0) (some [1, 2, 3]) 3, .swap 0 1, .consume 1 2]
          oks (fun _ => []) i := by
  refine ⟨never_under_allocates.1 Unit _ _ _ _ _ _ ?_ ?_ ?_,
    never_under_allocates.2.1 _ _ _ ?_ ?_, never_under_allocates.2.2 _ ?_⟩
  · simp [sizeMax]
  · simp
  · simp [sizeMax]
  · simp
  · simp
  · simp [BufOp.Legal]

end Monoblok.Memory
