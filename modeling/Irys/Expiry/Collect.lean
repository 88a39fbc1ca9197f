import Irys.Expiry.Sweep

/-!
# What the walk collects

Each block of the range is read once, trimmed to the range, and its transactions are attributed
by their first chunk.  All blocks together give the transactions that start in the range.
-/

namespace Irys

open List

variable {s : Stores} {config : ConsensusConfig} {ledger : DataLedger} {chain : List SealedBlock}
  {parentHeight : ℕ}

/-- Transaction `tx` of block `k` starts at chunk `start` of the ledger. -/
def PlacedIn (config : ConsensusConfig) (ledger : DataLedger) (chain : List SealedBlock) (k : ℕ)
    (tx : DataTransactionHeader) (start : ℕ) : Prop :=
  ∃ b, chain[k]? = some b ∧
    (tx, start) ∈ laidOut (chunksOf config) (chunksBefore config ledger chain k) (b.dataTxs ledger)

variable {k start : ℕ} {tx : DataTransactionHeader} {slotMiners : SlotMiners}
    {Q : DataTransactionHeader → ℕ → Prop} {hs : List DataTransactionHeader}

theorem placedIn_iff {b : SealedBlock} (hb : chain[k]? = some b) :
    PlacedIn config ledger chain k tx start ↔ (tx, start) ∈
      laidOut (chunksOf config) (chunksBefore config ledger chain k) (b.dataTxs ledger) := by
  simp [PlacedIn, hb]

theorem PlacedIn.inBlock (wf : LedgerChain config ledger chain) (hsize : 0 < config.chunkSize)
    (h : PlacedIn config ledger chain k tx start) : InBlock config ledger chain k start := by
  obtain ⟨b, hb, hmem⟩ := h
  obtain ⟨hle, hend⟩ := laidOut_bounds hmem
  have hpos : 0 < chunksOf config tx :=
    divCeil_pos hsize (wf.size_pos b (mem_of_getElem? hb) tx ((mem_iff_laidOut _ _).mpr ⟨_, hmem⟩))
  refine ⟨hle, ?_⟩
  rw [chunksBefore_succ hb]
  omega

/-- The transactions of the first `n` blocks in the layout of the whole ledger. -/
theorem mem_layout_iff {n : ℕ} :
    (tx, start) ∈ laidOut (chunksOf config) 0 ((chain.take n).flatMap (·.dataTxs ledger)) ↔
      ∃ k < n, PlacedIn config ledger chain k tx start :=
  mem_laidOut_flatMap

/-- **A transaction id has one place in the chain.** -/
theorem placed_unique (wf : LedgerChain config ledger chain) {k' start' : ℕ}
    {tx' : DataTransactionHeader} (h : PlacedIn config ledger chain k tx start)
    (h' : PlacedIn config ledger chain k' tx' start') (hid : tx.id = tx'.id) :
    tx = tx' ∧ start = start' := by
  have hlayout : ∀ {k start : ℕ} {tx : DataTransactionHeader},
      PlacedIn config ledger chain k tx start →
        (tx, start) ∈ laidOut (chunksOf config) 0 (chain.flatMap (·.dataTxs ledger)) := by
    intro k start tx hp
    have hk : k < chain.length := by
      obtain ⟨b, hb, -⟩ := hp
      exact lt_length_of_some hb
    have := mem_layout_iff.mpr ⟨k, hk, hp⟩
    rwa [take_length] at this
  exact laidOut_unique wf.ids_nodup (hlayout h) (hlayout h') hid

/-- The miners of the slot that holds the first chunk of a transaction of the chain. -/
def AttributedTo (config : ConsensusConfig) (ledger : DataLedger) (chain : List SealedBlock)
    (slotMiners : SlotMiners) (id : IrysTransactionId) (miners : List IrysAddress) : Prop :=
  ∃ k tx start, PlacedIn config ledger chain k tx start ∧ tx.id = id ∧
    slotMiners[start / config.numChunksInPartition]? = some miners

theorem attributedTo_unique (wf : LedgerChain config ledger chain) (slotMiners : SlotMiners)
    (id : IrysTransactionId) (v v' : List IrysAddress)
    (h : AttributedTo config ledger chain slotMiners id v)
    (h' : AttributedTo config ledger chain slotMiners id v') : v = v' := by
  obtain ⟨k, tx, start, hp, rfl, hv⟩ := h
  obtain ⟨k', tx', start', hp', hid, hv'⟩ := h'
  obtain ⟨-, rfl⟩ := placed_unique wf hp hp' hid.symm
  exact Option.some.inj (hv.symm.trans hv')

/-! ### One block -/

/-- What the trims let through. -/
def Selects (range : LedgerChunkRange) (isEarliest isLatest : Bool) (start : ℕ) : Prop :=
  (isEarliest = true → range.start ≤ start) ∧ (isLatest = true → start < range.stop)

variable {range : LedgerChunkRange} {isEarliest isLatest : Bool}
    {Q' : DataTransactionHeader → ℕ → Prop} {m : TxToMiners}

/-- **One pass over a block's transactions**: those that the trims let through, with the miners of
their slots.  `F` is any attribution that gives no transaction two answers. -/
theorem filterLoop_spec
    {F : IrysTransactionId → List IrysAddress → Prop} (hF : ∀ id v v', F id v → F id v' → v = v') :
    ∀ (txs : List DataTransactionHeader) {offset : ℕ} {m : TxToMiners}
      {R : IrysTransactionId → List IrysAddress → Prop},
      Holds m R → (∀ id v, R id v → F id v) →
      offset + extent (chunksOf config) txs < 2 ^ 64 →
      (∀ tx start, (tx, start) ∈ laidOut (chunksOf config) offset txs →
        Selects range isEarliest isLatest start →
          ∃ v, slotMiners[start / config.numChunksInPartition]? = some v ∧ F tx.id v) →
      ∃ m', filterLoop config range isEarliest isLatest slotMiners txs offset m = .ok m' ∧
        Holds m' fun id v => R id v ∨ ∃ tx start,
          (tx, start) ∈ laidOut (chunksOf config) offset txs ∧
            Selects range isEarliest isLatest start ∧ tx.id = id ∧
              slotMiners[start / config.numChunksInPartition]? = some v := by
  intro txs
  induction txs with
  | nil =>
    intro offset m R hm _ _ _
    refine ⟨m, rfl, hm.congr ?_⟩
    intro id v
    simp [laidOut]
  | cons tx txs ih =>
    intro offset m R hm hR hfits hslots
    rw [extent_cons] at hfits
    have hend : saturatingAdd 64 offset (divCeil tx.dataSize config.chunkSize) =
        offset + chunksOf config tx := saturatingAdd_of_lt (by rw [chunksOf] at hfits; omega)
    obtain ⟨hhead, hrest⟩ := forall_mem_laidOut_cons.mp hslots
    have hfits' : offset + chunksOf config tx + extent (chunksOf config) txs < 2 ^ 64 := by omega
    rw [filterLoop]
    dsimp only
    rw [hend]
    by_cases hskip : isEarliest = true ∧ offset < range.start
    · -- start trim: this transaction is not selected
      rw [if_pos (by simpa using hskip)]
      obtain ⟨m', hrun, hm'⟩ := ih hm hR hfits' hrest
      have hnot : ¬ Selects range isEarliest isLatest offset :=
        fun hsel => absurd (hsel.1 hskip.1) (by omega)
      refine ⟨m', hrun, hm'.congr ?_⟩
      intro id v
      rw [exists_mem_laidOut_cons, iff_false_intro hnot, false_and, false_or]
    · rw [if_neg (by simpa using hskip)]
      by_cases hstop : isLatest = true ∧ range.stop ≤ offset
      · -- end trim: everything from here on starts too late
        rw [if_pos (by simpa using hstop)]
        refine ⟨m, rfl, hm.congr ?_⟩
        intro id v
        refine (or_iff_left ?_).symm
        rintro ⟨tx', start, hmem, hsel, -⟩
        have := (laidOut_bounds hmem).1
        have := hsel.2 hstop.1
        omega
      · rw [if_neg (by simpa using hstop)]
        have hsel : Selects range isEarliest isLatest offset :=
          ⟨fun hE => not_lt.mp fun hlt => hskip ⟨hE, hlt⟩,
            fun hL => not_le.mp fun hge => hstop ⟨hL, hge⟩⟩
        obtain ⟨miners, hminers, hFm⟩ := hhead hsel
        rw [hminers]
        dsimp only
        have hinsert := hm.insert (fun v hv => hF _ _ _ (hR _ v hv) hFm)
        obtain ⟨m', hrun, hm'⟩ := ih hinsert
          (by rintro id v (⟨rfl, rfl⟩ | hv); exacts [hFm, hR id v hv]) hfits' hrest
        refine ⟨m', hrun, hm'.congr ?_⟩
        intro id v
        rw [exists_mem_laidOut_cons, hminers, Option.some_inj, eq_comm (a := id), eq_comm (a := v),
          iff_true_intro hsel, true_and, or_comm (b := R id v), or_assoc]

/-- **A map of miners and a list of headers for one set of placed transactions.** -/
structure Collected (config : ConsensusConfig) (slotMiners : SlotMiners)
    (Q : DataTransactionHeader → ℕ → Prop) (m : TxToMiners) (headers : List DataTransactionHeader) :
    Prop where
  miners : Holds m fun id v => ∃ tx start, Q tx start ∧ tx.id = id ∧
    slotMiners[start / config.numChunksInPartition]? = some v
  headers : ∀ tx, tx ∈ headers ↔ ∃ start, Q tx start

theorem Collected.congr
    (h : Collected config slotMiners Q m hs) (heq : ∀ tx start, Q tx start ↔ Q' tx start) :
    Collected config slotMiners Q' m hs := by
  constructor
  · refine h.miners.congr ?_
    intro id v
    simp only [heq]
  · intro tx
    rw [h.headers tx]
    simp only [heq]

theorem collected_empty (slotMiners : SlotMiners) :
    Collected config slotMiners (fun _ _ => False) ∅ [] := by
  constructor
  · refine holds_empty ?_
    simp
  · intro tx
    simp

theorem Collected.union (wf : LedgerChain config ledger chain) {m' : TxToMiners}
    {hs' : List DataTransactionHeader}
    (hQ : ∀ tx start, Q tx start → ∃ k, PlacedIn config ledger chain k tx start)
    (hQ' : ∀ tx start, Q' tx start → ∃ k, PlacedIn config ledger chain k tx start)
    (h : Collected config slotMiners Q m hs) (h' : Collected config slotMiners Q' m' hs') :
    Collected config slotMiners (fun tx start => Q tx start ∨ Q' tx start)
      (m.insertMany m'.toList) (hs ++ hs') := by
  constructor
  · refine (h.miners.insertMap h'.miners ?_).congr ?_
    · rintro id v v' ⟨tx, start, hq, hattr⟩ ⟨tx', start', hq', hattr'⟩
      obtain ⟨k, hk⟩ := hQ tx start hq
      obtain ⟨k', hk'⟩ := hQ' tx' start' hq'
      exact attributedTo_unique wf slotMiners id v v' ⟨k, tx, start, hk, hattr⟩
        ⟨k', tx', start', hk', hattr'⟩
    · intro id v
      simp only [or_and_right, exists_or]
  · intro tx
    rw [mem_append, h.headers, h'.headers, exists_or]

section

variable (h : Serves s config ledger chain parentHeight) (hsize : 0 < config.chunkSize)
    (hC : 0 < config.numChunksInPartition)
include h hsize hC

/-- **One block of the chain**, trimmed, when every slot the trims let through is expired. -/
theorem processBlock_spec
    (range : LedgerChunkRange) {b : SealedBlock}
    (hb : chain[k]? = some b) (hk : k ≤ parentHeight) {o : ℕ}
    (ho : InBlock config ledger chain k o)
    (hslots : ∀ start, InBlock config ledger chain k start →
      Selects range isEarliest isLatest start →
        ∃ v, slotMiners[start / config.numChunksInPartition]? = some v) :
    ∃ m hs, processBlock s config ledger b.header.blockHash (chunksBefore config ledger chain k)
        range isEarliest isLatest slotMiners = .ok (m, hs) ∧
      Collected config slotMiners
        (fun tx start => PlacedIn config ledger chain k tx start ∧
          Selects range isEarliest isLatest start) m hs := by
  have hne : b.dataTxs ledger ≠ [] := by
    intro hnil
    obtain ⟨hle, hlt⟩ := ho
    rw [chunksBefore_succ hb, hnil, extent_nil] at hlt
    omega
  obtain ⟨m, hrun, hm⟩ := filterLoop_spec (attributedTo_unique h.wf slotMiners)
    (b.dataTxs ledger) (holds_empty fun _ _ => id) (fun _ _ => False.elim) (h.wf.block_fits hb) (by
      intro tx start hp hsel
      have hp := (placedIn_iff hb).mpr hp
      obtain ⟨v, hv⟩ := hslots start (hp.inBlock h.wf hsize) hsel
      exact ⟨v, hv, k, tx, start, hp, rfl, hv⟩)
  have hminers : Holds m fun id v => ∃ tx start, (PlacedIn config ledger chain k tx start ∧
      Selects range isEarliest isLatest start) ∧ tx.id = id ∧
        slotMiners[start / config.numChunksInPartition]? = some v := by
    refine hm.congr ?_
    intro id v
    simp only [false_or, placedIn_iff hb, and_assoc]
  refine ⟨m, (b.dataTxs ledger).filter fun tx => m.contains tx.id, ?_, hminers, ?_⟩
  · rw [processBlock, h.txHeaders hb hk hne, mapErr_ok, ok_bind, filterTransactionsByChunkRange,
      if_neg hsize.ne', if_neg hC.ne', hrun, ok_bind]
    rfl
  · intro tx
    rw [mem_filter, hminers.contains_iff]
    constructor
    · rintro ⟨htx, v, tx', start', ⟨hp', hsel⟩, hid, -⟩
      obtain ⟨start, hp⟩ := (mem_iff_laidOut _ _).mp htx
      obtain ⟨rfl, rfl⟩ := placed_unique h.wf ((placedIn_iff hb).mpr hp) hp' hid.symm
      exact ⟨start, hp', hsel⟩
    · rintro ⟨start, hp, hsel⟩
      obtain ⟨v, hv⟩ := hslots start (hp.inBlock h.wf hsize) hsel
      exact ⟨(mem_iff_laidOut _ _).mpr ⟨_, (placedIn_iff hb).mp hp⟩, v, tx, start, ⟨hp, hsel⟩, rfl, hv⟩

/-! ### The blocks together -/

section

variable (config) (ledger) (chain)

/-- Transactions of the blocks of a list of hashes and bases. -/
def InBlocks
    (blocks : List (H256 × ℕ)) (tx : DataTransactionHeader) (start : ℕ) : Prop :=
  ∃ k b, chain[k]? = some b ∧
    (b.header.blockHash, chunksBefore config ledger chain k) ∈ blocks ∧
      PlacedIn config ledger chain k tx start

/-- An entry of the table of bases that can be processed whole: a block of the chain with data,
all of it in expired slots. -/
def WholeBlock
    (parentHeight : ℕ) (slotMiners : SlotMiners) (entry : H256 × ℕ) : Prop :=
  ∃ k b o, chain[k]? = some b ∧
    entry = (b.header.blockHash, chunksBefore config ledger chain k) ∧ k ≤ parentHeight ∧
      InBlock config ledger chain k o ∧ ∀ start, InBlock config ledger chain k start →
        ∃ v, slotMiners[start / config.numChunksInPartition]? = some v

end

/-- **The middle blocks**, one after the other. -/
theorem middleSteps_spec :
    ∀ (blocks : List (H256 × ℕ)) {acc : TxToMiners × List DataTransactionHeader}
      {Q : DataTransactionHeader → ℕ → Prop},
      (∀ tx start, Q tx start → ∃ k, PlacedIn config ledger chain k tx start) →
      Collected config slotMiners Q acc.1 acc.2 →
      (∀ p ∈ blocks, WholeBlock config ledger chain parentHeight slotMiners p) →
      ∃ acc', blocks.foldlM (middleStep s config ledger range slotMiners) acc = .ok acc' ∧
        Collected config slotMiners
          (fun tx start => Q tx start ∨ InBlocks config ledger chain blocks tx start)
          acc'.1 acc'.2 := by
  intro blocks
  induction blocks with
  | nil =>
    intro acc Q _ hacc _
    refine ⟨acc, rfl, hacc.congr ?_⟩
    intro tx start
    simp [InBlocks]
  | cons p blocks ih =>
    intro acc Q hQ hacc hwhole
    obtain ⟨k, b, o, hb, rfl, hk, ho, hslots⟩ := hwhole p (mem_cons_self ..)
    obtain ⟨m, hs, hrun, hcol⟩ := processBlock_spec h hsize hC range hb hk ho
      (fun start hin _ => hslots start hin)
    let next : TxToMiners × List DataTransactionHeader :=
      (acc.1.insertMany m.toList, acc.2 ++ hs)
    have hnext : Collected config slotMiners _ next.1 next.2 :=
      hacc.union h.wf hQ (fun tx start hq => ⟨k, hq.1⟩) hcol
    have hplaced : ∀ tx start, (Q tx start ∨ PlacedIn config ledger chain k tx start ∧
        Selects range false false start) → ∃ k, PlacedIn config ledger chain k tx start := by
      rintro tx start (hq | hq)
      · exact hQ tx start hq
      · exact ⟨k, hq.1⟩
    obtain ⟨acc', hfold, hacc'⟩ := ih hplaced hnext
      (fun q hq => hwhole q (mem_cons_of_mem _ hq))
    refine ⟨acc', ?_, hacc'.congr ?_⟩
    · rw [foldlM_cons, middleStep, hrun, ok_bind]
      exact hfold
    · intro tx start
      rw [or_assoc]
      refine or_congr_right ⟨?_, ?_⟩
      · rintro (⟨hp, -⟩ | ⟨k', b', hb', hmem, hp⟩)
        · exact ⟨k, b, hb, mem_cons_self .., hp⟩
        · exact ⟨k', b', hb', mem_cons_of_mem _ hmem, hp⟩
      · rintro ⟨k', b', hb', hmem, hp⟩
        rcases mem_cons.mp hmem with heq | hmem
        · obtain ⟨rfl, -⟩ := h.wf.eq_of_hash hb' hb (congrArg Prod.fst heq)
          exact .inl ⟨hp, nofun, nofun⟩
        · exact .inr ⟨k', b', hb', hmem, hp⟩

end

/-- The first and the last block of the chunks `[lo, hi)`. -/
structure Ends (config : ConsensusConfig) (ledger : DataLedger) (chain : List SealedBlock)
    (lo hi i j : ℕ) (first last : SealedBlock) : Prop where
  first : chain[i]? = some first
  last : chain[j]? = some last
  lo_in : InBlock config ledger chain i lo
  hi_in : InBlock config ledger chain j (hi - 1)
  lt : lo < hi

section Ends

variable {lo hi i j : ℕ} {first last : SealedBlock}

theorem Ends.le (e : Ends config ledger chain lo hi i j first last) : i ≤ j := by
  have := e.lt
  exact e.lo_in.index_le e.hi_in (by omega)

variable {k : ℕ}

/-- **Where the trims matter.**  Between the first and the last block of a range, a chunk is in
the range unless it is cut off in the first or in the last block. -/
theorem Ends.inRange_iff (e : Ends config ledger chain lo hi i j first last) {start : ℕ}
    (hik : i ≤ k) (hkj : k ≤ j) (hin : InBlock config ledger chain k start) :
    (lo ≤ start ∧ start < hi) ↔ (k = i → lo ≤ start) ∧ (k = j → start < hi) := by
  have hlt := e.lt
  constructor
  · rintro ⟨hlo, hhi⟩
    exact ⟨fun _ => hlo, fun _ => hhi⟩
  · rintro ⟨hfirst, hlast⟩
    constructor
    · rcases Nat.eq_or_lt_of_le hik with heq | hne
      · exact hfirst heq.symm
      · have := chunksBefore_mono config ledger chain (show i + 1 ≤ k from hne)
        have := e.lo_in.2
        have := hin.1
        omega
    · rcases Nat.eq_or_lt_of_le hkj with heq | hne
      · exact hlast heq
      · have := chunksBefore_mono config ledger chain (show k + 1 ≤ j from hne)
        have := e.hi_in.1
        have := hin.2
        omega

theorem Ends.between (e : Ends config ledger chain lo hi i j first last) {o : ℕ}
    (hin : InBlock config ledger chain k o) (hlo : lo ≤ o) (hhi : o < hi) : i ≤ k ∧ k ≤ j :=
  ⟨e.lo_in.index_le hin hlo, hin.index_le e.hi_in (by omega)⟩

theorem Ends.same_iff (e : Ends config ledger chain lo hi i j first last)
    (wf : LedgerChain config ledger chain) :
    (first.header.blockHash == last.header.blockHash) = decide (i = j) := by
  rw [Bool.eq_iff_iff, beq_iff_eq, decide_eq_true_eq, wf.hash_eq_iff e.first e.last]

/-- The slots of a range are expired. -/
def Expired (config : ConsensusConfig) (slotMiners : SlotMiners) (lo hi : ℕ) : Prop :=
  ∀ o, lo ≤ o → o < hi → ∃ v, slotMiners[o / config.numChunksInPartition]? = some v

variable {slotMiners : SlotMiners}

section

variable (h : Serves s config ledger chain parentHeight) (hsize : 0 < config.chunkSize)
    (hC : 0 < config.numChunksInPartition)
include h hsize hC

/-- **A block whose trims cut it to the range.** -/
theorem processBlock_inRange {b : SealedBlock} (hb : chain[k]? = some b) (hk : k ≤ parentHeight)
    {o : ℕ} (ho : InBlock config ledger chain k o) {isEarliest isLatest : Bool}
    (hsel : ∀ start, InBlock config ledger chain k start →
      (Selects ⟨lo, hi⟩ isEarliest isLatest start ↔ lo ≤ start ∧ start < hi))
    (hexp : Expired config slotMiners lo hi) :
    ∃ m hs, processBlock s config ledger b.header.blockHash (chunksBefore config ledger chain k)
        ⟨lo, hi⟩ isEarliest isLatest slotMiners = .ok (m, hs) ∧
      Collected config slotMiners
        (fun tx start => PlacedIn config ledger chain k tx start ∧ lo ≤ start ∧ start < hi)
        m hs := by
  obtain ⟨m, hs, hrun, hcol⟩ := processBlock_spec h hsize hC ⟨lo, hi⟩ hb hk ho (by
    intro start hin hs
    obtain ⟨hlo, hhi⟩ := (hsel start hin).mp hs
    exact hexp start hlo hhi)
  refine ⟨m, hs, hrun, hcol.congr ?_⟩
  intro tx start
  exact and_congr_right fun hp => hsel start (hp.inBlock h.wf hsize)

/-- **The first block**, trimmed at its start, and at its end when it is the only one. -/
theorem processEarliest_spec (e : Ends config ledger chain lo hi i j first last)
    (hj : j ≤ parentHeight) (hexp : Expired config slotMiners lo hi) :
    ∃ m hs, processBoundaryBlock s config ledger (metBlock config ledger chain i first) ⟨lo, hi⟩
        true (first.header.blockHash == last.header.blockHash) slotMiners = .ok (m, hs) ∧
      Collected config slotMiners
        (fun tx start => PlacedIn config ledger chain i tx start ∧ lo ≤ start ∧ start < hi)
        m hs := by
  rw [e.same_iff h.wf]
  refine processBlock_inRange h hsize hC e.first (e.le.trans hj) e.lo_in ?_ hexp
  intro start hin
  rw [e.inRange_iff le_rfl e.le hin, Selects]
  simp

/-- **The last block**, trimmed at its end, unless it is the first. -/
theorem processLatest_spec (e : Ends config ledger chain lo hi i j first last)
    (hj : j ≤ parentHeight) {range : BlockRange}
    (hmin : range.minBlock = metBlock config ledger chain i first)
    (hmax : range.maxBlock = metBlock config ledger chain j last)
    (hchunks : range.chunkRange = ⟨lo, hi⟩) (hexp : Expired config range.slotMiners lo hi) :
    ∃ m hs, processLatestBlock s config ledger range = .ok (m, hs) ∧
      Collected config range.slotMiners
        (fun tx start => i ≠ j ∧ PlacedIn config ledger chain j tx start ∧ lo ≤ start ∧ start < hi)
        m hs := by
  have hsame : (range.minBlock.blockHash == range.maxBlock.blockHash) = decide (i = j) := by
    rw [hmin, hmax]
    exact e.same_iff h.wf
  rw [processLatestBlock, hsame]
  by_cases hij : i = j
  · rw [decide_eq_true hij, if_pos rfl]
    refine ⟨∅, [], rfl, (collected_empty _).congr ?_⟩
    intro tx start
    simp [hij]
  · rw [decide_eq_false hij, if_neg Bool.false_ne_true, hmax, hchunks]
    simp only [ne_eq, hij, not_false_eq_true, true_and]
    refine processBlock_inRange h hsize hC e.last hj e.hi_in ?_ hexp
    intro start hin
    rw [e.inRange_iff e.le le_rfl hin, Selects]
    simp [Ne.symm hij]

/-- **The middle blocks**: every block with a chunk in the range that is not an end. -/
theorem processMiddle_spec (e : Ends config ledger chain lo hi i j first last)
    (hj : j ≤ parentHeight) {middleBlocks : Std.TreeMap H256 ℕ}
    (hmiddle : Holds middleBlocks fun hash base =>
      (MetBase config ledger chain lo hi hash base ∧ hash ≠ first.header.blockHash) ∧
        hash ≠ last.header.blockHash)
    (hexp : Expired config slotMiners lo hi) :
    ∃ m hs, processMiddleBlocks s config ledger middleBlocks ⟨lo, hi⟩ slotMiners = .ok (m, hs) ∧
      Collected config slotMiners
        (fun tx start => ∃ k, k ≠ i ∧ k ≠ j ∧ PlacedIn config ledger chain k tx start ∧
          lo ≤ start ∧ start < hi) m hs := by
  have hentry : ∀ {hash base}, (hash, base) ∈ middleBlocks.toList ↔
      (MetBase config ledger chain lo hi hash base ∧ hash ≠ first.header.blockHash) ∧
        hash ≠ last.header.blockHash := by
    intro hash base
    rw [Std.TreeMap.mem_toList_iff_getElem?_eq_some]
    exact hmiddle hash base
  have hends : ∀ {k : ℕ} {b : SealedBlock}, chain[k]? = some b →
      (b.header.blockHash ≠ first.header.blockHash ∧ b.header.blockHash ≠ last.header.blockHash ↔
        k ≠ i ∧ k ≠ j) := by
    intro k b hb
    rw [Ne, h.wf.hash_eq_iff hb e.first, Ne, h.wf.hash_eq_iff hb e.last]
  have hwhole : ∀ p ∈ middleBlocks.toList,
      WholeBlock config ledger chain parentHeight slotMiners p := by
    rintro ⟨hash, base⟩ hp
    obtain ⟨⟨⟨k, b, o, hb, rfl, rfl, hlo, hhi, hin⟩, hf⟩, hl⟩ := hentry.mp hp
    obtain ⟨hik, hkj⟩ := e.between hin hlo hhi
    obtain ⟨hki, hkj'⟩ := (hends hb).mp ⟨hf, hl⟩
    refine ⟨k, b, o, hb, rfl, hkj.trans hj, hin, ?_⟩
    intro start hstart
    obtain ⟨hlo, hhi⟩ := (e.inRange_iff hik hkj hstart).mpr
      ⟨fun heq => absurd heq hki, fun heq => absurd heq hkj'⟩
    exact hexp start hlo hhi
  let nil : TxToMiners × List DataTransactionHeader := (∅, [])
  have hnil : Collected config slotMiners (fun _ _ => False) nil.1 nil.2 := collected_empty _
  obtain ⟨⟨m, hs⟩, hrun, hcol⟩ := middleSteps_spec h hsize hC middleBlocks.toList
    (fun _ _ hf => hf.elim) hnil hwhole
  refine ⟨m, hs, hrun, hcol.congr ?_⟩
  intro tx start
  constructor
  · rintro (hf | ⟨k, b, hb, hmem, hp⟩)
    · cases hf
    · obtain ⟨⟨⟨k', b', o, hb', hhash, -, hlo, hhi, hin⟩, hf⟩, hl⟩ := hentry.mp hmem
      obtain ⟨rfl, rfl⟩ := h.wf.eq_of_hash hb hb' hhash
      obtain ⟨hik, hkj⟩ := e.between hin hlo hhi
      obtain ⟨hki, hkj'⟩ := (hends hb).mp ⟨hf, hl⟩
      exact ⟨k, hki, hkj', hp, (e.inRange_iff hik hkj (hp.inBlock h.wf hsize)).mpr
        ⟨fun heq => absurd heq hki, fun heq => absurd heq hkj'⟩⟩
  · rintro ⟨k, hki, hkj, hp, hlo, hhi⟩
    obtain ⟨b, hb, -⟩ := id hp
    obtain ⟨hf, hl⟩ := (hends hb).mpr ⟨hki, hkj⟩
    exact .inr ⟨k, b, hb, hentry.mpr ⟨⟨⟨k, b, start, hb, rfl, rfl, hlo, hhi,
      hp.inBlock h.wf hsize⟩, hf⟩, hl⟩, hp⟩

end

end Ends

theorem holds_keyedHeaders (wf : LedgerChain config ledger chain)
    (hQ : ∀ tx start, Q tx start → ∃ k, PlacedIn config ledger chain k tx start)
    (h : ∀ tx, tx ∈ hs ↔ ∃ start, Q tx start) :
    Holds ((∅ : TxHeaders).insertMany (keyedHeaders hs))
      fun id tx => (∃ start, Q tx start) ∧ tx.id = id := by
  have hmem : ∀ {id tx}, (id, tx) ∈ keyedHeaders hs ↔ (∃ start, Q tx start) ∧ tx.id = id := by
    intro id tx
    simp only [keyedHeaders, List.mem_map, Prod.mk.injEq, ← h]
    constructor
    · rintro ⟨tx', htx', rfl, rfl⟩
      exact ⟨htx', rfl⟩
    · rintro ⟨htx, hid⟩
      exact ⟨tx, htx, hid, rfl⟩
  refine ((holds_empty fun _ _ => id).insertMany ?_ (fun id tx tx' hf => hf.elim)).congr ?_
  · -- an id has one header
    intro id tx tx' htx htx'
    obtain ⟨⟨start, hq⟩, hid⟩ := hmem.mp htx
    obtain ⟨⟨start', hq'⟩, hid'⟩ := hmem.mp htx'
    obtain ⟨k, hk⟩ := hQ tx start hq
    obtain ⟨k', hk'⟩ := hQ tx' start' hq'
    exact (placed_unique wf hk hk' (hid.trans hid'.symm)).1
  · intro id tx
    rw [hmem, false_or]

/-- **The collection.**  The blocks of a range give exactly the transactions that start in it,
each with the miners of its slot and with its header. -/
theorem collect_spec (h : Serves s config ledger chain parentHeight)
    (hsize : 0 < config.chunkSize) (hC : 0 < config.numChunksInPartition)
    {expiredSlots : SlotMiners} {range : BlockRange} {lo hi : ℕ}
    (hrange : RangeSpec config ledger chain expiredSlots lo hi range) (hlt : lo < hi)
    (hhi : hi ≤ chunksBefore config ledger chain (parentHeight + 1))
    (hslots : Expired config expiredSlots lo hi) :
    ∃ m headers, collectTxToMinersFromRange s config ledger range = .ok (m, headers) ∧
      (Holds m fun id v => ∃ tx start,
        ((∃ k, PlacedIn config ledger chain k tx start) ∧ lo ≤ start ∧ start < hi) ∧ tx.id = id ∧
          expiredSlots[start / config.numChunksInPartition]? = some v) ∧
      Holds headers fun id tx =>
        (∃ start, (∃ k, PlacedIn config ledger chain k tx start) ∧ lo ≤ start ∧ start < hi) ∧
          tx.id = id := by
  obtain ⟨i, first, hfirst, hlo_in, hmin⟩ := hrange.first
  obtain ⟨j, last, hlast, hhi_in, hmax⟩ := hrange.last
  have e : Ends config ledger chain lo hi i j first last := ⟨hfirst, hlast, hlo_in, hhi_in, hlt⟩
  have hminers : ∀ k : ℕ, range.slotMiners[k]? = expiredSlots[k]? := by
    intro k
    apply Option.ext
    exact hrange.miners k
  have hexp : Expired config range.slotMiners lo hi := by
    intro o hlo hhi
    rw [hminers]
    exact hslots o hlo hhi
  have hj : j ≤ parentHeight := by
    have hend : hi - 1 < chunksBefore config ledger chain (parentHeight + 1) := by omega
    exact index_le_of_frontier hhi_in.1 hend
  have hmiddle := hrange.middle
  rw [hmin, hmax] at hmiddle
  obtain ⟨m₁, hs₁, hrun₁, hcol₁⟩ := processEarliest_spec h hsize hC e hj hexp
  obtain ⟨m₂, hs₂, hrun₂, hcol₂⟩ := processLatest_spec h hsize hC e hj hmin hmax hrange.chunks hexp
  obtain ⟨m₃, hs₃, hrun₃, hcol₃⟩ := processMiddle_spec h hsize hC e hj hmiddle hexp
  have hcol := (((collected_empty range.slotMiners).union h.wf (fun _ _ hf => hf.elim)
    (fun _ _ hq => ⟨i, hq.1⟩) hcol₁).union h.wf
    (by rintro tx start (hf | hq); exacts [hf.elim, ⟨i, hq.1⟩])
    (fun _ _ hq => ⟨j, hq.2.1⟩) hcol₂).union h.wf
    (by rintro tx start ((hf | hq) | hq); exacts [hf.elim, ⟨i, hq.1⟩, ⟨j, hq.2.1⟩])
    (fun _ _ ⟨k, _, _, hp, _⟩ => ⟨k, hp⟩) hcol₃
  -- a block is the first one, the last one or one between them
  have hall := hcol.congr fun tx start => by
    show _ ↔ (∃ k, PlacedIn config ledger chain k tx start) ∧ lo ≤ start ∧ start < hi
    constructor
    · rintro (((hf | ⟨hp, hin⟩) | ⟨-, hp, hin⟩) | ⟨k, -, -, hp, hin⟩)
      · cases hf
      · exact ⟨⟨i, hp⟩, hin⟩
      · exact ⟨⟨j, hp⟩, hin⟩
      · exact ⟨⟨k, hp⟩, hin⟩
    · rintro ⟨⟨k, hp⟩, hin⟩
      by_cases hki : k = i
      · subst hki
        exact .inl (.inl (.inr ⟨hp, hin⟩))
      · by_cases hkj : k = j
        · subst hkj
          exact .inl (.inr ⟨Ne.symm hki, hp, hin⟩)
        · exact .inr ⟨k, hki, hkj, hp, hin⟩
  have hheaders : ∀ tx, tx ∈ hs₁ ++ hs₂ ++ hs₃ ↔ _ := hall.headers
  have hkeyed := holds_keyedHeaders h.wf (fun _ _ hq => hq.1) hheaders
  simp only [keyedHeaders, map_append, Std.TreeMap.insertMany_append] at hkeyed
  refine ⟨_, _, ?_, hall.miners.congr ?_, hkeyed⟩
  · have hearliest : processBoundaryBlock s config ledger range.minBlock range.chunkRange true
        (range.minBlock.blockHash == range.maxBlock.blockHash) range.slotMiners =
          .ok (m₁, hs₁) := by
      rw [hmin, hmax, hrange.chunks]
      exact hrun₁
    rw [← hrange.chunks] at hrun₃
    unfold collectTxToMinersFromRange
    dsimp only
    rw [hearliest, ok_bind, hrun₃, ok_bind, hrun₂, ok_bind]
    -- both maps have the attributed ids as keys
    refine if_pos (beq_iff_eq.mpr (keys_eq_keys ?_))
    intro id
    refine (hall.miners.contains_iff id).trans (Iff.trans ?_ (hkeyed.contains_iff id).symm)
    constructor
    · rintro ⟨v, tx, start, hq, hid, -⟩
      exact ⟨tx, ⟨start, hq⟩, hid⟩
    · rintro ⟨tx, ⟨start, hq⟩, hid⟩
      obtain ⟨v, hv⟩ := hexp start hq.2.1 hq.2.2
      exact ⟨v, tx, start, hq, hid, hv⟩
  · intro id v
    simp only [hminers]

end Irys
