import Rekha.Wal.Refinement

/-!
# A batch torn inside a record

A batch of appends writes its records behind the file that was there. Cut
anywhere behind that file, the log opens with what was there and exactly those
records of the batch that end at or before the cut.
-/

namespace Rekha.Framed

/-- The records of a batch whose first operation gets seq `n + 1`. -/
def stamped (epoch n : ℕ) : List Operation → List WalRecord
  | [] => []
  | op :: ops => ⟨n + 1, epoch, op⟩ :: stamped epoch (n + 1) ops

section Stamped

variable {epoch : ℕ}

@[simp] theorem length_stamped : ∀ {n : ℕ} {ops : List Operation},
    (stamped epoch n ops).length = ops.length
  | _, [] => rfl
  | _, _ :: _ => congrArg (· + 1) length_stamped

theorem stamped_take : ∀ (j n : ℕ) (ops : List Operation),
    (stamped epoch n ops).take j = stamped epoch n (ops.take j)
  | 0, _, _ => rfl
  | _ + 1, _, [] => rfl
  | j + 1, n, op :: ops => by
      rw [stamped, List.take_succ_cons, List.take_succ_cons, stamped, stamped_take j]

theorem mem_stamped : ∀ {n : ℕ} {ops : List Operation} {r : WalRecord}, r ∈ stamped epoch n ops →
    n < r.seq ∧ r.seq ≤ n + ops.length ∧ r.epoch = epoch ∧ r.op ∈ ops
  | _, [], _, h => absurd h List.not_mem_nil
  | n, op :: ops, r, h => by
      rw [List.length_cons]
      rcases List.mem_cons.mp h with rfl | h
      · refine ⟨Nat.lt_succ_self _, ?_, rfl, List.mem_cons_self⟩
        show n + 1 ≤ _
        omega
      · obtain ⟨hlow, hhigh, hepoch, hop⟩ := mem_stamped h
        exact ⟨by omega, by omega, hepoch, List.mem_cons_of_mem _ hop⟩

theorem increasing_stamped : ∀ {n : ℕ} {ops : List Operation},
    (stamped epoch n ops).Pairwise fun a b => a.seq < b.seq
  | _, [] => List.Pairwise.nil
  | _, _ :: _ => List.Pairwise.cons (fun _ hr => (mem_stamped hr).1) increasing_stamped

theorem length_encodeRecords_stamped {k : Codec} {len : List Operation → ℕ} (hnil : len [] = 0)
    (hcons : ∀ op ops, len (op :: ops) = k.recordLen op + len ops) :
    ∀ {n : ℕ} {ops : List Operation}, (encodeRecords k (stamped epoch n ops)).length = len ops
  | _, [] => hnil.symm
  | n, op :: ops => by
      rw [hcons, stamped, encodeRecords, List.flatMap_cons, List.length_append,
        length_encodeRecord]
      exact congrArg (k.recordLen op + ·) (length_encodeRecords_stamped hnil hcons)

end Stamped

namespace Wal

variable {k : Codec} {epoch : UInt64} {w : Wal} {checks : Bool}

theorem Holds.run_appends (hround : k.RoundTrips) : ∀ {ops : List Operation} {w : Wal}
    {rs : List WalRecord}, w.Holds k epoch.toNat rs → lastSeqOf rs ≤ w.lastSeq →
      w.lastSeq + ops.length < 2 ^ 64 → (∀ op ∈ ops, k.recordLen op < 2 ^ 32) →
      (w.run k checks (ops.map .append)).2.file =
        w.file ++ encodeRecords k (stamped epoch.toNat w.lastSeq ops)
  | [], w, _, _, _, _, _ => (List.append_nil _).symm
  | op :: ops, w, rs, hw, hle, hlt, hfit => by
      obtain ⟨hop, hops⟩ := List.forall_mem_cons.mp hfit
      rw [List.length_cons] at hlt
      obtain ⟨w', hok, hw', hlast, hfile⟩ := hw.append checks hround hle (by omega) hop
      have hstep : w.step k checks (.append op) =
          (.appended (entryOf ⟨w.lastSeq + 1, epoch.toNat, op⟩), w') := by
        simp only [step]
        rw [hok]
      have hle' : lastSeqOf (rs ++ [⟨w.lastSeq + 1, epoch.toNat, op⟩]) ≤ w'.lastSeq := by
        rw [lastSeqOf, List.getLast?_append, List.getLast?_singleton, hlast]
        exact Nat.le_refl _
      have ih := hw'.run_appends hround hle' (by omega) hops
      rw [List.map_cons, run, hstep]
      dsimp only
      rw [ih, hfile, hlast, stamped, encodeRecords, encodeRecords, List.flatMap_cons,
        List.append_assoc]

/-- **A torn batch**: of the file that a batch leaves, cut at or behind the end
of the file before it, opening keeps the old records and those of the batch that
end at or before the cut. -/
theorem Holds.torn {rs : List WalRecord} {ops : List Operation} (hw : w.Holds k epoch.toNat rs)
    (hround : k.RoundTrips) (hle : lastSeqOf rs ≤ w.lastSeq)
    (hlt : w.lastSeq + ops.length < 2 ^ 64) (hfit : ∀ op ∈ ops, k.recordLen op < 2 ^ 32)
    (checks : Bool) {n : ℕ} (hn : w.file.length ≤ n) (startSeq : Option ℕ) :
    ∃ j w', j ≤ ops.length ∧
      w.file.length + (encodeRecords k (stamped epoch.toNat w.lastSeq (ops.take j))).length ≤ n ∧
      (j < ops.length → n < w.file.length +
        (encodeRecords k (stamped epoch.toNat w.lastSeq (ops.take (j + 1)))).length) ∧
      Recovers k epoch ((w.run k checks (ops.map .append)).2.file.take n) startSeq
        (rs ++ stamped epoch.toNat w.lastSeq (ops.take j)) w' ∧
      w'.Holds k epoch.toNat (rs ++ stamped epoch.toNat w.lastSeq (ops.take j)) := by
  obtain ⟨body, hfile, hbody⟩ := hw.file
  have hall : ∀ i, ∀ r ∈ stamped epoch.toNat w.lastSeq (ops.take i),
      w.lastSeq < r.seq ∧ r.seq < 2 ^ 64 ∧
        recordHeaderLen + (k.serialize r.op).length < 2 ^ 32 ∧ r.epoch = epoch.toNat := by
    intro i r hr
    rw [← stamped_take] at hr
    obtain ⟨hlow, hhigh, hepoch, hop⟩ := mem_stamped (List.mem_of_mem_take hr)
    exact ⟨hlow, by omega, hfit _ hop, hepoch⟩
  have hframes : ∀ i, Records k epoch.toNat ((recordFraming k epoch.toNat).after none rs)
      (encodeRecords k (stamped epoch.toNat w.lastSeq (ops.take i)))
      (stamped epoch.toNat w.lastSeq (ops.take i)) := by
    intro i
    refine records_encodeRecords hround (fun r hr => (hall i r hr).2.2)
      (fun r hr => (hall i r hr).2.1) increasing_stamped fun r hr p hp => ?_
    rw [after_eq, Option.or_none] at hp
    have hlast : lastSeqOf rs = p := by rw [lastSeqOf, hp]; rfl
    exact (hlast ▸ hle).trans_lt (hall i r hr).1
  have hpre : ∀ i, encodeRecords k (stamped epoch.toNat w.lastSeq (ops.take i)) <+:
      encodeRecords k (stamped epoch.toNat w.lastSeq ops) := by
    intro i
    refine ⟨encodeRecords k ((stamped epoch.toNat w.lastSeq ops).drop i), ?_⟩
    rw [← stamped_take, encodeRecords, encodeRecords, encodeRecords, ← List.flatMap_append,
      List.take_append_drop]
  have hwhole := hframes ops.length
  rw [List.take_length] at hwhole
  have hcutfile : (w.run k checks (ops.map .append)).2.file.take n = buildHeader k epoch.toNat ++
      (body ++ encodeRecords k (stamped epoch.toNat w.lastSeq ops)).take (n - headerLen) := by
    rw [hfile, List.length_append, length_buildHeader] at hn
    rw [hw.run_appends hround hle hlt hfit, hfile, List.append_assoc, List.take_append,
      List.take_of_length_le (by rw [length_buildHeader]; omega), length_buildHeader]
  rw [hcutfile, hfile, List.length_append, length_buildHeader]
  rw [hfile, List.length_append, length_buildHeader] at hn
  obtain ⟨rs', w', hrec, hheld⟩ := exists_recovers k epoch
    ((body ++ encodeRecords k (stamped epoch.toNat w.lastSeq ops)).take (n - headerLen)) startSeq
  obtain ⟨tail, valid, htail, hlong, -⟩ := hrec.longest
  obtain rfl := List.append_cancel_left htail
  obtain ⟨j, m, hj, rfl, -, hm, hmq, hend, hnext⟩ :=
    Framing.Frames.cut_append hbody hwhole (by omega) hlong
  rw [stamped_take] at hm hrec hheld
  have hlen : m = encodeRecords k (stamped epoch.toNat w.lastSeq (ops.take j)) :=
    (Framing.Frames.ext hm (hframes j) hmq (hpre j) rfl).1
  rw [length_stamped] at hj hnext
  refine ⟨j, w', hj, ?_, ?_, hrec, hheld⟩
  · rw [← hlen]
    omega
  · intro hjlt
    have := hnext (encodeRecords k (stamped epoch.toNat w.lastSeq (ops.take (j + 1))))
      (by rw [stamped_take]; exact hframes (j + 1)) (hpre (j + 1)) hjlt
    omega

end Wal

end Rekha.Framed
