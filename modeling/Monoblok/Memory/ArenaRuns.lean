import Mathlib
import Monoblok.Memory.Arena

/-!
# What an arena has given out

A run of calls on an arena keeps a list of the ranges returned since the last
reset. Memory for a new block comes from anywhere outside of the blocks there
are. The ranges stay apart, and trimming leaves the blocks they lie in.
-/

namespace Monoblok.Memory

open CheckedSize Monoblok.Alignment

/-- A returned range, with its block as it was then and the alignment asked for. -/
structure Given where
  block : ArenaBlock
  start : ℕ
  size : ℕ
  align : ℕ

/-- The addresses of the range. -/
def Given.bytes (g : Given) : Set ℕ := Set.Ico g.start (g.start + g.size)

structure ArenaState where
  blocks : List ArenaBlock
  given : List Given

inductive ArenaCall where
  | alloc (malloc : ℕ → Option ℕ) (size align : ℕ)
  | reset
  | trim (keepCap : ℕ)

/-- `malloc` answers with memory that ends within the address space and has
nothing in common with the blocks there are. -/
def FreshMemory (arena : List ArenaBlock) (malloc : ℕ → Option ℕ) : Prop :=
  ∀ bytes addr, malloc bytes = some addr →
    addr + bytes ≤ sizeMax ∧ ∀ b ∈ arena, addr + bytes ≤ b.addr ∨ b.limit ≤ addr

/-- Arguments are sizes, and memory is fresh. -/
def ArenaCall.Legal (arena : List ArenaBlock) : ArenaCall → Prop
  | .alloc malloc size align => size ≤ sizeMax ∧ align ≤ sizeMax ∧ FreshMemory arena malloc
  | .reset => True
  | .trim keepCap => keepCap ≤ sizeMax

/-- The state after a call that gave out what `r` says. -/
def ArenaState.after (s : ArenaState) (r : List ArenaBlock × Option (ArenaBlock × ℕ))
    (size align : ℕ) : ArenaState :=
  ⟨r.1, (r.2.map fun x => ⟨x.1, x.2, size, align⟩).toList ++ s.given⟩

def arenaStep (s : ArenaState) : ArenaCall → Option ArenaState
  | .alloc malloc size align =>
    (pbArenaAlloc malloc s.blocks size align).map fun r => s.after r size align
  | .reset => some ⟨pbArenaReset s.blocks, []⟩
  | .trim keepCap => (pbArenaTrim s.blocks keepCap).map fun blocks => ⟨blocks, s.given⟩

/-- The states that calls lead to from an arena without blocks. -/
inductive ArenaReached : ArenaState → Prop
  | empty : ArenaReached ⟨[], []⟩
  | step {s s' : ArenaState} (call : ArenaCall) (h : ArenaReached s) (hlegal : call.Legal s.blocks)
      (hstep : arenaStep s call = some s') : ArenaReached s'

/-- Where a block begins and ends. -/
def ArenaBlock.extent (b : ArenaBlock) : ℕ × ℕ := (b.addr, b.limit)

def Apart (e f : ℕ × ℕ) : Prop := e.2 ≤ f.1 ∨ f.2 ≤ e.1

structure ArenaInv (s : ArenaState) : Prop where
  blocks : ∀ b ∈ s.blocks, b.Ok
  apart : (s.blocks.map ArenaBlock.extent).Pairwise Apart
  within : ∀ g ∈ s.given, g.block.data ≤ g.start ∧ g.start + g.size ≤ g.block.limit
  aligned : ∀ g ∈ s.given, requestedAlign g.align ∣ g.start
  live : ∀ g ∈ s.given, g.size ≠ 0 → ∃ b ∈ s.blocks, b.addr = g.block.addr ∧
    b.cap = g.block.cap ∧ g.start + g.size ≤ b.data + b.used
  disjoint : s.given.Pairwise fun g h => Disjoint g.bytes h.bytes

theorem arenaInv_empty : ArenaInv ⟨[], []⟩ := by
  constructor <;> simp

theorem Apart.symm {x y : ℕ × ℕ} (h : Apart x y) : Apart y x := Or.symm h

/-! ## Giving out -/

theorem TakenFrom.extent {b b' : ArenaBlock} {ptr size align : ℕ}
    (h : TakenFrom b b' ptr size align) : b'.extent = b.extent := by
  simp only [ArenaBlock.extent, ArenaBlock.limit, ArenaBlock.data, h.addr, h.cap]

theorem disjoint_of_apart {g : Given} {b c : ArenaBlock} (hc : Apart b.extent c.extent)
    (hstart : c.addr ≤ g.start) (hend : g.start + g.size ≤ c.limit) {l u : ℕ} (hl : b.addr ≤ l)
    (hu : u ≤ b.limit) : Disjoint (Set.Ico l u) g.bytes := by
  rw [Given.bytes, Set.Ico_disjoint_Ico]
  simp only [Apart, ArenaBlock.extent] at hc
  omega

/-- One of the blocks gives out a range. -/
theorem ArenaInv.place {l₁ l₂ : List ArenaBlock} {b b' : ArenaBlock} {given : List Given}
    {ptr size align : ℕ} (h : ArenaInv ⟨l₁ ++ b :: l₂, given⟩)
    (htaken : TakenFrom b b' ptr size (requestedAlign align)) :
    ArenaInv ⟨l₁ ++ b' :: l₂, ⟨b', ptr, size, align⟩ :: given⟩ := by
  have hb := h.blocks b (by simp)
  have hext := htaken.extent
  have haddr := htaken.addr
  have hcap := htaken.cap
  have hbehind := htaken.behind
  have hused := htaken.used
  have hwithin := htaken.within
  have hdata : b'.data = b.data := by simp only [ArenaBlock.data, haddr]
  have hlimit : b'.limit = b.limit := congrArg Prod.snd hext
  have hblock : b.addr ≤ b.data := Nat.le_add_right _ _
  have hlimit' : b.limit = b.data + b.cap := rfl
  have hmem : ∀ c ∈ l₁ ++ b' :: l₂, c = b' ∨ c ∈ l₁ ++ b :: l₂ := by
    intro c hc
    simp only [List.mem_append, List.mem_cons] at hc ⊢
    rcases hc with hc | rfl | hc
    · exact .inr (.inl hc)
    · exact .inl rfl
    · exact .inr (.inr (.inr hc))
  constructor
  · intro c hc
    rcases hmem c hc with rfl | hc
    · exact ⟨hwithin, hlimit ▸ hb.limit⟩
    · exact h.blocks c hc
  · have hapart := h.apart
    simp only [List.map_append, List.map_cons, hext] at hapart ⊢
    exact hapart
  · intro g hg
    rcases List.mem_cons.mp hg with rfl | hg
    · dsimp only
      omega
    · exact h.within g hg
  · intro g hg
    rcases List.mem_cons.mp hg with rfl | hg
    · exact htaken.aligned
    · exact h.aligned g hg
  · intro g hg hsize
    rcases List.mem_cons.mp hg with rfl | hg
    · exact ⟨b', by simp, rfl, rfl, hused.le⟩
    · obtain ⟨c, hc, hca, hcc, hend⟩ := h.live g hg hsize
      simp only [List.mem_append, List.mem_cons] at hc
      rcases hc with hc | rfl | hc
      · exact ⟨c, by simp [hc], hca, hcc, hend⟩
      · exact ⟨b', by simp, haddr.trans hca, hcap.trans hcc, by omega⟩
      · exact ⟨c, by simp [hc], hca, hcc, hend⟩
  · refine List.pairwise_cons.mpr ⟨?_, h.disjoint⟩
    intro g hg
    by_cases hsize : g.size = 0
    · simp [Given.bytes, hsize]
    · -- the older range lies in the same block, before what was used, or in another block
      obtain ⟨c, hc, hca, hcc, hend⟩ := h.live g hg hsize
      obtain ⟨hgstart, hgend⟩ := h.within g hg
      have hcdata : c.data = g.block.data := by simp only [ArenaBlock.data, hca]
      have hclimit : c.limit = g.block.limit := by simp only [ArenaBlock.limit, hcdata, hcc]
      have hother : c ∈ l₁ ∨ c ∈ l₂ → Disjoint (Given.bytes ⟨b', ptr, size, align⟩) g.bytes := by
        intro hc
        have hapart := h.apart
        rw [List.map_append, List.map_cons, List.pairwise_middle Apart.symm,
          List.pairwise_cons] at hapart
        have hce := hapart.1 c.extent (by
          rw [← List.map_append]
          exact List.mem_map_of_mem (List.mem_append.mpr hc))
        have hcaddr : c.addr ≤ c.data := Nat.le_add_right _ _
        have hupper : ptr + size ≤ b.limit := by omega
        exact disjoint_of_apart hce (by omega) (by omega) (l := ptr) (by omega) hupper
      simp only [List.mem_append, List.mem_cons] at hc
      rcases hc with hc | rfl | hc
      · exact hother (.inl hc)
      · rw [Given.bytes, Given.bytes, Set.Ico_disjoint_Ico]
        dsimp only
        omega
      · exact hother (.inr hc)

/-- A block of fresh memory in front. -/
theorem ArenaInv.extend {s : ArenaState} (h : ArenaInv s) {malloc : ℕ → Option ℕ}
    (hfresh : FreshMemory s.blocks malloc) {cap addr : ℕ}
    (hmalloc : malloc (blockHeader + cap) = some addr) :
    ArenaInv ⟨⟨addr, 0, cap⟩ :: s.blocks, s.given⟩ := by
  obtain ⟨hmax, hclear⟩ := hfresh _ _ hmalloc
  constructor
  · intro b hb
    rcases List.mem_cons.mp hb with rfl | hb
    · refine ⟨Nat.zero_le _, ?_⟩
      simp only [ArenaBlock.limit, ArenaBlock.data]
      omega
    · exact h.blocks b hb
  · rw [List.map_cons, List.pairwise_cons]
    refine ⟨?_, h.apart⟩
    intro e he
    obtain ⟨b, hb, rfl⟩ := List.mem_map.mp he
    have hb := hclear b hb
    simp only [Apart, ArenaBlock.extent, ArenaBlock.limit, ArenaBlock.data] at hb ⊢
    omega
  · exact h.within
  · exact h.aligned
  · intro g hg hsize
    obtain ⟨b, hb, hrest⟩ := h.live g hg hsize
    exact ⟨b, List.mem_cons_of_mem _ hb, hrest⟩
  · exact h.disjoint

/-- No block is moved or freed. -/
def KeepsBlocks (before after : List ArenaBlock) : Prop :=
  ∀ b ∈ before, ∃ b' ∈ after, b'.addr = b.addr ∧ b'.cap = b.cap

theorem keepsBlocks_refl (blocks : List ArenaBlock) : KeepsBlocks blocks blocks :=
  fun b hb => ⟨b, hb, rfl, rfl⟩

theorem KeepsBlocks.place {l₁ l₂ : List ArenaBlock} {b b' : ArenaBlock} {ptr size align : ℕ}
    (h : TakenFrom b b' ptr size align) : KeepsBlocks (l₁ ++ b :: l₂) (l₁ ++ b' :: l₂) := by
  intro c hc
  simp only [List.mem_append, List.mem_cons] at hc
  rcases hc with hc | rfl | hc
  · exact ⟨c, by simp [hc], rfl, rfl⟩
  · exact ⟨b', by simp, h.addr, h.cap⟩
  · exact ⟨c, by simp [hc], rfl, rfl⟩

theorem ArenaInv.grow {s : ArenaState} (h : ArenaInv s) {malloc : ℕ → Option ℕ}
    (hfresh : FreshMemory s.blocks malloc) {size align : ℕ} (halign : requestedAlign align ≤ sizeMax) :
    ∃ r, arenaGrow malloc s.blocks size (requestedAlign align) = some r ∧
      ArenaInv (s.after r size align) ∧ KeepsBlocks s.blocks r.1 := by
  have hsame : ArenaInv (s.after (s.blocks, none) size align) := h
  have hkept := keepsBlocks_refl s.blocks
  unfold arenaGrow
  rw [sub_of_le halign, Option.bind_some]
  by_cases hmost : sizeMax - requestedAlign align < size
  · exact ⟨_, by simp [hmost], hsame, hkept⟩
  · have hmin : size + requestedAlign align ≤ sizeMax := by omega
    obtain ⟨cap, hcap, hroom, -, hmax⟩ := double_spec hmin 64 4096 (by simp [sizeMax])
      (by simp only [sizeMax] at hmin; omega)
    have hheader : blockHeader ≤ sizeMax := by simp [blockHeader, sizeMax]
    simp only [hmost, if_false, add_of_le hmin, Option.bind_some, hcap, sub_of_le hheader]
    by_cases hlargest : sizeMax - blockHeader < cap
    · exact ⟨_, by simp [hlargest], hsame, hkept⟩
    · have hbytes : blockHeader + cap ≤ sizeMax := by omega
      simp only [hlargest, if_false, add_of_le hbytes, Option.bind_some]
      cases hmalloc : malloc (blockHeader + cap) with
      | none => exact ⟨_, rfl, hsame, hkept⟩
      | some addr =>
        have hext := h.extend hfresh hmalloc
        obtain ⟨r, hr, hspec⟩ := fitBlock_spec (hext.blocks _ List.mem_cons_self) size halign
        simp only [hr, Option.map_some]
        cases r with
        | refused => exact ⟨_, rfl, hsame, hkept⟩
        | tooSmall => exact ⟨_, rfl, hsame, hkept⟩
        | placed result =>
          obtain ⟨b, ptr⟩ := result
          refine ⟨_, rfl, ?_, ?_⟩
          · have hplaced : ArenaInv ⟨[] ++ b :: s.blocks, ⟨b, ptr, size, align⟩ :: s.given⟩ :=
              ArenaInv.place hext (hspec b ptr rfl)
            exact hplaced
          · exact fun c hc => ⟨c, List.mem_cons_of_mem _ hc, rfl, rfl⟩

theorem ArenaInv.alloc {s : ArenaState} (h : ArenaInv s) {malloc : ℕ → Option ℕ}
    (hfresh : FreshMemory s.blocks malloc) (size : ℕ) {align : ℕ} (halign : align ≤ sizeMax) :
    ∃ r, pbArenaAlloc malloc s.blocks size align = some r ∧ ArenaInv (s.after r size align) ∧
      KeepsBlocks s.blocks r.1 := by
  have hword : requestedAlign align ≤ sizeMax := by
    unfold requestedAlign
    split_ifs
    · simp [wordSize, sizeMax]
    · exact halign
  have hsame : ArenaInv (s.after (s.blocks, none) size align) := h
  have hkept := keepsBlocks_refl s.blocks
  unfold pbArenaAlloc
  by_cases hpow : isPowerOfTwo (requestedAlign align) = true
  · obtain ⟨r, hr, hspec⟩ := fitFirst_spec h.blocks size hword
    simp only [hpow, Bool.not_true, Bool.false_eq_true, if_false, hr, Option.bind_some]
    cases r with
    | refused => exact ⟨_, rfl, hsame, hkept⟩
    | tooSmall => exact h.grow hfresh hword
    | placed result =>
      obtain ⟨blocks, b', ptr⟩ := result
      obtain ⟨l₁, b, l₂, hl, rfl, htaken⟩ := hspec _ _ _ rfl
      obtain ⟨_, given⟩ := s
      dsimp only at hl
      subst hl
      exact ⟨_, rfl, h.place htaken, .place htaken⟩
  · exact ⟨_, by simp [hpow], hsame, hkept⟩

/-! ## Resetting and trimming -/

theorem ArenaInv.reset {s : ArenaState} (h : ArenaInv s) :
    ArenaInv ⟨pbArenaReset s.blocks, []⟩ ∧ KeepsBlocks s.blocks (pbArenaReset s.blocks) := by
  constructor
  · constructor
    · intro b hb
      obtain ⟨c, hc, rfl⟩ := List.mem_map.mp hb
      exact ⟨Nat.zero_le _, (h.blocks c hc).limit⟩
    · have hext : (pbArenaReset s.blocks).map ArenaBlock.extent = s.blocks.map ArenaBlock.extent := by
        rw [pbArenaReset, List.map_map]
        rfl
      rw [hext]
      exact h.apart
    · simp
    · simp
    · simp
    · simp
  · intro b hb
    exact ⟨{ b with used := 0 }, List.mem_map_of_mem hb, rfl, rfl⟩

/-- The bytes of the blocks nothing was taken off. -/
def unusedCap (blocks : List ArenaBlock) : ℕ :=
  ((blocks.filter fun b => b.used == 0).map ArenaBlock.cap).sum

theorem unusedCap_cons (b : ArenaBlock) (bs : List ArenaBlock) :
    unusedCap (b :: bs) = (if b.used = 0 then b.cap else 0) + unusedCap bs := by
  unfold unusedCap
  by_cases hb : b.used = 0 <;> simp [hb]

/-- What trimming keeps, when it has retained some bytes already. -/
structure Trimmed (keepCap retained : ℕ) (blocks kept : List ArenaBlock) : Prop where
  sublist : kept.Sublist blocks
  used : ∀ b ∈ blocks, b.used ≠ 0 → b ∈ kept
  unused : unusedCap kept ≤ keepCap - retained

theorem Trimmed.keep {keepCap retained retained' : ℕ} {b : ArenaBlock} {bs kept : List ArenaBlock}
    (h : Trimmed keepCap retained' bs kept) (hle : retained ≤ retained')
    (hb : b.used = 0 → retained' = retained + b.cap ∧ retained' ≤ keepCap) :
    Trimmed keepCap retained (b :: bs) (b :: kept) := by
  have hunused := h.unused
  constructor
  · exact h.sublist.cons_cons b
  · intro c hc hused
    rcases List.mem_cons.mp hc with rfl | hc
    · exact List.mem_cons_self
    · exact List.mem_cons_of_mem _ (h.used c hc hused)
  · rw [unusedCap_cons]
    split_ifs with hzero
    · have hb := hb hzero
      omega
    · omega

theorem trimFrom_spec {keepCap : ℕ} (hkeep : keepCap ≤ sizeMax) {blocks : List ArenaBlock}
    (h : ∀ b ∈ blocks, b.Ok) {retained : ℕ} (hretained : retained ≤ sizeMax) :
    ∃ kept, trimFrom keepCap retained blocks = some kept ∧ Trimmed keepCap retained blocks kept := by
  induction blocks generalizing retained with
  | nil => exact ⟨[], rfl, .refl _, by simp, by simp [unusedCap]⟩
  | cons b bs ih =>
    obtain ⟨hb, hbs⟩ := List.forall_mem_cons.mp h
    have hcap : b.cap ≤ sizeMax := by
      have hlimit := hb.limit
      simp only [ArenaBlock.limit] at hlimit
      omega
    -- whether the block is over the budget is decided without wrapping
    have hover : (if keepCap ≤ retained then some true
        else (sub keepCap retained).map fun left => decide (left < b.cap)) =
          some (decide (keepCap ≤ retained ∨ keepCap - retained < b.cap)) := by
      split_ifs with hle
      · simp [hle]
      · simp [hle, sub_of_le (Nat.le_of_not_le hle)]
    unfold trimFrom
    rw [hover, Option.bind_some]
    by_cases hdrop : b.used = 0 ∧ (keepCap ≤ retained ∨ keepCap - retained < b.cap)
    · obtain ⟨kept, hkept, hspec⟩ := ih hbs hretained
      refine ⟨kept, by simpa [hdrop] using hkept, hspec.sublist.cons b, ?_, hspec.unused⟩
      intro c hc hused
      rcases List.mem_cons.mp hc with rfl | hc
      · exact absurd hdrop.1 hused
      · exact hspec.used c hc hused
    · obtain ⟨retained', hnext, hle, hmax, hexact⟩ : ∃ retained',
          (if sizeMax - b.cap < retained then some sizeMax else add sizeMax retained b.cap) =
            some retained' ∧ retained ≤ retained' ∧ retained' ≤ sizeMax ∧
            (retained + b.cap ≤ sizeMax → retained' = retained + b.cap) := by
        by_cases hfull : sizeMax - b.cap < retained
        · exact ⟨sizeMax, by simp [hfull], hretained, le_rfl, by omega⟩
        · have hsum : retained + b.cap ≤ sizeMax := by omega
          exact ⟨retained + b.cap, by simp [hfull, add_of_le hsum], by omega, hsum, fun _ => rfl⟩
      obtain ⟨kept, hkept, hspec⟩ := ih hbs hmax
      refine ⟨b :: kept, ?_, hspec.keep hle ?_⟩
      · simp [hdrop, sub_of_le hcap, hnext, hkept]
      · intro hzero
        simp only [hzero, true_and, not_or] at hdrop
        have hsum := hexact (by omega)
        omega

theorem ArenaInv.trim {s : ArenaState} (h : ArenaInv s) {kept : List ArenaBlock} {keepCap : ℕ}
    (htrim : Trimmed keepCap 0 s.blocks kept) : ArenaInv ⟨kept, s.given⟩ := by
  constructor
  · exact fun b hb => h.blocks b (htrim.sublist.subset hb)
  · exact h.apart.sublist (htrim.sublist.map _)
  · exact h.within
  · exact h.aligned
  · intro g hg hsize
    obtain ⟨b, hb, haddr, hcap, hend⟩ := h.live g hg hsize
    refine ⟨b, htrim.used b hb ?_, haddr, hcap, hend⟩
    have hstart := (h.within g hg).1
    simp only [ArenaBlock.data, haddr] at hstart hend
    omega
  · exact h.disjoint

/-- The memory of a freed block has no byte of a range given out. -/
theorem ArenaInv.freed {s : ArenaState} (h : ArenaInv s) {kept : List ArenaBlock} {keepCap : ℕ}
    (htrim : Trimmed keepCap 0 s.blocks kept) {b : ArenaBlock} (hb : b ∈ s.blocks)
    (hfreed : b ∉ kept) {g : Given} (hg : g ∈ s.given) :
    Disjoint (Set.Ico b.addr b.limit) g.bytes := by
  by_cases hsize : g.size = 0
  · simp [Given.bytes, hsize]
  · obtain ⟨c, hc, haddr, hcap, hend⟩ := (h.trim htrim).live g hg hsize
    obtain ⟨hstart, -⟩ := h.within g hg
    have hused := ((h.trim htrim).blocks c hc).used
    have hne : b ≠ c := fun heq => hfreed (heq ▸ hc)
    have hsymm : Std.Symm fun b c : ArenaBlock => Apart b.extent c.extent :=
      ⟨fun _ _ => Apart.symm⟩
    have hapart : Apart b.extent c.extent :=
      (List.pairwise_map.mp h.apart).forall hb (htrim.sublist.subset hc) hne
    simp only [ArenaBlock.data, ← haddr] at hstart hend
    have hlower : c.addr ≤ g.start := by omega
    have hupper : g.start + g.size ≤ c.limit := by
      simp only [ArenaBlock.limit, ArenaBlock.data]
      omega
    exact disjoint_of_apart hapart hlower hupper le_rfl le_rfl

/-! ## Runs -/

/-- What a call does to the blocks. -/
def ArenaCall.Keeps (s s' : ArenaState) : ArenaCall → Prop
  | .trim keepCap => unusedCap s'.blocks ≤ keepCap ∧ s'.blocks.Sublist s.blocks ∧
      ∀ b ∈ s.blocks, b ∉ s'.blocks → ∀ g ∈ s.given, Disjoint (Set.Ico b.addr b.limit) g.bytes
  | _ => KeepsBlocks s.blocks s'.blocks

theorem ArenaInv.step {s : ArenaState} (h : ArenaInv s) {call : ArenaCall}
    (hlegal : call.Legal s.blocks) :
    ∃ s', arenaStep s call = some s' ∧ ArenaInv s' ∧ call.Keeps s s' := by
  cases call with
  | alloc malloc size align =>
    obtain ⟨-, halign, hfresh⟩ := hlegal
    obtain ⟨r, hr, hinv, hkept⟩ := h.alloc hfresh size halign
    exact ⟨s.after r size align, by simp [arenaStep, hr], hinv, hkept⟩
  | reset => exact ⟨_, rfl, h.reset⟩
  | trim keepCap =>
    obtain ⟨kept, hkept, htrim⟩ := trimFrom_spec hlegal h.blocks (Nat.zero_le sizeMax)
    refine ⟨⟨kept, s.given⟩, by simp [arenaStep, pbArenaTrim, hkept], h.trim htrim, ?_⟩
    exact ⟨htrim.unused, htrim.sublist, fun b hb hfreed g hg => h.freed htrim hb hfreed hg⟩

theorem ArenaReached.inv {s : ArenaState} (h : ArenaReached s) : ArenaInv s := by
  induction h with
  | empty => exact arenaInv_empty
  | step call _ hlegal hstep ih =>
    obtain ⟨s', hs', hinv, -⟩ := ih.step hlegal
    rw [hstep] at hs'
    cases hs'
    exact hinv

/-- After any calls the ranges given out are within their blocks, aligned, apart
and not freed, and the next call computes without wrapping. -/
theorem arena_ranges_stable {s : ArenaState} (h : ArenaReached s) :
    ArenaInv s ∧ ∀ call : ArenaCall, call.Legal s.blocks →
      ∃ s', arenaStep s call = some s' ∧ call.Keeps s s' := by
  refine ⟨h.inv, fun call hlegal => ?_⟩
  obtain ⟨s', hs', -, hkeeps⟩ := h.inv.step hlegal
  exact ⟨s', hs', hkeeps⟩

/-- The first range of an arena, in memory at 4096 that needs aligning. -/
theorem arena_ranges_stable_first :
    ArenaInv ⟨[⟨4096, 18, 4096⟩], [⟨⟨4096, 18, 4096⟩, 4128, 10, 16⟩]⟩ ∧
      ∀ call : ArenaCall, call.Legal [⟨4096, 18, 4096⟩] →
        ∃ s', arenaStep ⟨[⟨4096, 18, 4096⟩], [⟨⟨4096, 18, 4096⟩, 4128, 10, 16⟩]⟩ call = some s' ∧
          call.Keeps ⟨[⟨4096, 18, 4096⟩], [⟨⟨4096, 18, 4096⟩, 4128, 10, 16⟩]⟩ s' := by
  have hfresh : FreshMemory [] fun bytes => if bytes ≤ 65536 then some 4096 else none := by
    intro bytes addr hmalloc
    dsimp only at hmalloc
    split_ifs at hmalloc with hsmall
    cases hmalloc
    refine ⟨?_, by simp⟩
    simp only [sizeMax]
    omega
  apply arena_ranges_stable
  apply ArenaReached.step
    (.alloc (fun bytes => if bytes ≤ 65536 then some 4096 else none) 10 16) .empty
  · exact ⟨by simp [sizeMax], by simp [sizeMax], hfresh⟩
  · rfl

/-- All that `reset_scratch` retains is within its limit. -/
theorem resetScratch_retains {s : ArenaState} (h : ArenaReached s) :
    ∃ blocks, resetScratch s.blocks = some blocks ∧
      (blocks.map ArenaBlock.cap).sum ≤ scratchRetainBytes := by
  obtain ⟨hinv, -⟩ := h.inv.reset
  have hlimit : scratchRetainBytes ≤ sizeMax := by simp [scratchRetainBytes, sizeMax]
  obtain ⟨kept, hkept, htrim⟩ := trimFrom_spec hlimit hinv.blocks (Nat.zero_le sizeMax)
  refine ⟨kept, hkept, ?_⟩
  have hunused : kept.filter (fun b => b.used == 0) = kept := by
    apply List.filter_eq_self.mpr
    intro b hb
    obtain ⟨c, -, rfl⟩ := List.mem_map.mp (htrim.sublist.subset hb)
    simp
  have hle := htrim.unused
  rw [unusedCap, hunused] at hle
  exact hle

end Monoblok.Memory
