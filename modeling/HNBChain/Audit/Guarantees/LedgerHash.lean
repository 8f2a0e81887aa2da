import HNBChain.Audit.Guarantees.CommitValidity

/-!
# The hash of a stored block

`ConsToStandard` puts the precommits that a node holds when it commits into the header of the ledger
block, and `CalcBlockHash` covers them. Two nodes that commit one block from one state have the same
hash for it exactly if they hold the same precommits, and so do not agree on the previous hash of
the next block otherwise.

What else is in the header is the same for both: the state hash is that of senders and nonces,
whatever the order in which maps are gone through. A block is known by its hash and its parts
header, so the two nodes have the same.
-/
namespace HNBChain.Audit.Guarantees.LedgerHash

open Lib Source Source.Algorand

/-! ## Executing the block -/

/-- `BlockProcess` of a node with a ledger; `hash` is the hash of the state change. -/
def processes (order : MapOrder) (ledger : Ledger) (hash : StateChange → Bytes)
    (blk : StandardBlock) : Except Err Bytes :=
  match blockProcess order ledger ⟨UInt64.ofNat blk.header.blockNum, blk.txs⟩ with
  | (.error e, _) => .error e
  | (.ok (), ledger') =>
    .ok (((find ledger'.blocks (UInt64.ofNat blk.header.blockNum)).map fun stored =>
    hash stored.stateHash).getD [])

/-- It depends on the number and the transactions, and not on the order of maps. -/
theorem processes_eq (order order' : MapOrder) (ledger : Ledger) (hash : StateChange → Bytes)
    {blk blk' : StandardBlock} (blockNum : blk.header.blockNum = blk'.header.blockNum)
    (txs : blk.txs = blk'.txs) :
    processes order ledger hash blk = processes order' ledger hash blk' := by
  unfold processes blockProcess
  rw [blockNum, txs]
  rcases processTxs ledger.state blk'.txs (startRun ledger) with ⟨_ | _, run⟩
  · rfl
  · unfold finishBlock writeLedger
    dsimp only
    split_ifs
    · rfl
    · rfl

/-! ## The header -/

/-- The precommits of the commit round, by validator. -/
def heldPrecommits (n : Node) : List (Option Vote) :=
  ((n.votes.precommits n.commitRound).map fun vs =>
    (List.range vs.valSet.size).map vs.votes).getD []

theorem Node.currentCommit_eq {n : Node} {id : BlockID} {commit : Commit}
    (hm : n.votes.majority n.commitRound .precommit = some id)
    (made : n.currentCommit = some commit) : commit = ⟨id, heldPrecommits n⟩ := by
  unfold Node.currentCommit at made
  split_ifs at made
  obtain ⟨vs, hf, made⟩ := Option.bind_eq_some_iff.mp made
  have hk : n.votes.getVoteSet n.commitRound .precommit = some vs := hf
  rw [HeightVoteSet.majority, hk, Option.bind_some] at hm
  unfold VoteSet.makeCommit at made
  split_ifs at made
  rw [hm] at made
  rw [heldPrecommits, hf]
  exact (Option.some.inj made).symm

/-- Two nodes that commit one block from one state and one ledger, where the hashes of the two
headers are not the same by chance. -/
theorem stored_hash_iff {env env' : Env} {ans ans' : Answers} {n n' : Node} {id : BlockID}
    {block : Algorand.Block} {saved saved' : Saved} {s s' : State} {ledger : Ledger}
    {hash : StateChange → Bytes} {order order' : MapOrder} (digests : env'.digests = env.digests)
    (decodeTx : env'.decodeTx = env.decodeTx)
    (process : ans.blockProcess = processes order ledger hash)
    (process' : ans'.blockProcess = processes order' ledger hash)
    (prior : n'.lastCommitState = n.lastCommitState)
    (hco : Committing env ans n id block saved s)
    (commits' : Committing env' ans' n' id block saved' s')
    (noCollision : env.digests.standard saved'.standard.header =
      env.digests.standard saved.standard.header →
      saved'.standard.header.ext = saved.standard.header.ext) :
    (env'.digests.standard saved'.standard.header = env.digests.standard saved.standard.header ∧
        s'.previousHash = s.previousHash) ↔ heldPrecommits n' = heldPrecommits n := by
  obtain ⟨commit, blk, stateHash, made, _, hc, hp, rfl, rfl⟩ :=
    saveBlock_ok hco.saved
  obtain ⟨commit', blk', stateHash', made', _, converted', processed', rfl, rfl⟩ :=
    saveBlock_ok commits'.saved
  obtain rfl := Node.currentCommit_eq hco.majority made
  obtain rfl := Node.currentCommit_eq commits'.majority made'
  rw [digests, decodeTx] at converted'
  obtain ⟨ext, ha⟩ := consToStandard_commit hc _
  obtain rfl := Except.ok.inj (converted'.symm.trans ha)
  dsimp only at ext
  have sameHash : stateHash' = stateHash := by
    rw [process] at hp
    rw [process', processes_eq order' order] at processed'
    · exact Except.ok.inj (processed'.symm.trans hp)
    · rfl
    · rfl
  rw [prior, sameHash] at noCollision
  rw [prior, digests, sameHash]
  constructor
  · rintro ⟨he, -⟩
    have exts := noCollision he
    rw [ext] at exts
    exact congrArg Commit.precommits (Option.some.inj exts)
  · intro held
    have same : ({ blk.header with ext := some ⟨id, heldPrecommits n'⟩ } : StandardHeader) =
        blk.header := by
      rw [held, ← ext]
    rw [same]
    exact ⟨rfl, rfl⟩

/-! ## Three of four precommits -/

open RoundMonotone

/-- A node that is about to commit block 7 in round 0. -/
def committing (round : Int32) : Node :=
  { plainNode 1 with
    round := round
    step := .commit
    proposalBlock := some (plainBlock 1 7)
    proposalBlockParts := some ⟨1, [7], fun _ => some (plainPart 7), 1⟩
    votes := ((HeightVoteSet.new 1 (members 1)).addVote (voteOf 0 0 .precommit (plainID 7))).2
    commitRound := 0 }

noncomputable def committingAnswers (hnbFirst : Bool) : Answers :=
  { plainAnswers with
    blockProcess := processes (MapOrder.any hnbFirst)
      { genesisLedger with height := 1 } fun _ => [] }

theorem committing_commits (round : Int32) (hnbFirst : Bool) :
    ∃ saved s, saved.standard.header.ext = some ⟨plainID 7,
      [some (voteOf 0 0 .precommit (plainID 7))]⟩ ∧
      Committing (plainEnv 1 0) (committingAnswers hnbFirst) (committing round) (plainID 7)
        (plainBlock 1 7) saved s := by
  refine ⟨_, _, ?_, rfl, rfl, rfl, rfl, rfl, rfl⟩
  rfl

/-- They are in different rounds, go through their maps in different orders and hold the same
precommit. -/
theorem stored_hash_iff_seven : ∃ saved s saved' s',
    Committing (plainEnv 1 0) (committingAnswers true) (committing 0) (plainID 7)
      (plainBlock 1 7) saved s ∧
      Committing (plainEnv 1 0) (committingAnswers false) (committing 2) (plainID 7)
        (plainBlock 1 7) saved' s' ∧ s'.previousHash = s.previousHash := by
  obtain ⟨saved, s, ext, hco⟩ := committing_commits 0 true
  obtain ⟨saved', s', ext', commits'⟩ := committing_commits 2 false
  have prior : (committing 2).lastCommitState = (committing 0).lastCommitState := rfl
  have process (hnbFirst : Bool) : (committingAnswers hnbFirst).blockProcess =
      processes (MapOrder.any hnbFirst) { genesisLedger with height := 1 } fun _ => [] := rfl
  have iff := stored_hash_iff rfl rfl (process true) (process false) prior hco commits'
    fun _ => ext'.trans ext.symm
  exact ⟨saved, s, saved', s', hco, commits', (iff.mpr rfl).2⟩

/-- A hash that shows who has precommitted. -/
def showVoters (h : StandardHeader) : Bytes :=
  (h.ext.map fun commit => commit.precommits.map fun p => if p.isSome then 1 else 0).getD []

def showingEnv (self : Nat) : Env :=
    { plainEnv 4 self with digests := { digests with standard := showVoters } }

/-- A node gets block 7 and then the precommits of three validators. -/
def commitsWith (self : Nat) (voters : List Nat) : Node :=
  (plainNode 4).run (showingEnv self)
    ([(.timeout ⟨1, 0, .newHeight⟩, plainAnswers), (proposalFor 0 7, plainAnswers),
      (partOf 7, plainAnswers)] ++
        voters.map fun i => (voteFrom i 0 .precommit (plainID 7), plainAnswers))

/-- Two nodes store one block, of one hash and parts header, under different ledger hashes. -/
theorem two_hashes_of_one_block :
    (commitsWith 3 [0, 1, 2]).saved.map (fun c => (c.block.hash digests, c.partsHeader)) =
    [([7], plainParts 7)] ∧
      (commitsWith 2 [0, 1, 3]).saved.map (fun c => (c.block.hash digests, c.partsHeader)) =
      [([7], plainParts 7)] ∧
      (commitsWith 3 [0, 1, 2]).saved.map (fun c => showVoters c.standard.header) = [[1, 1, 1, 0]] ∧
      (commitsWith 2 [0, 1, 3]).saved.map (fun c => showVoters c.standard.header) = [[1, 1, 0, 1]] ∧
      (commitsWith 3 [0, 1, 2]).lastCommitState.previousHash ≠
        (commitsWith 2 [0, 1, 3]).lastCommitState.previousHash := by
  refine ⟨?_, ?_, ?_, ?_, ?_⟩ <;> decide +kernel

end HNBChain.Audit.Guarantees.LedgerHash
