import Tortoise.Net.Stream

/-!
# Who has sent what

`snd_una`, `snd_nxt` and `snd_max` are always in this order.  That the other end's
`rcv_nxt` lies between the first and the last, that the `FIN` has one number and that
no acknowledgement is thrown away as one of something not sent, holds as long as no
step does one of two things:

* a probe of a closed window, which `tcp_tick` sends without counting it, arrives
  where there is room for it by then (`Overrun`);
* the `FIN` is acknowledged while it is withdrawn for retransmission (`Withdrawn`).

Both can happen, and then the connection stops (`probed`) or ends twice (`ended`).
-/

namespace Tortoise.Net

open Lib

section

variable {strict : Prop} {w : World} {x : Bool} {s s' : Sock} {t t' : Tcb}

/-- `snd_una`, `snd_nxt`, `snd_max` are in this order in every reachable world. -/
theorem una_nxt_max {ok : World → Bool → Call → Prop} (h : Reach ok w)
    (hx : (w.side x).ep = .live s t) :
    (t.sndNxt - t.sndUna).toNat ≤ (t.sndMax - t.sndUna).toNat := by
  have hw : WorldOk False w := h.worldOk (fun hf => hf.elim)
  have hs := hw.side x
  have ht := hs.tied s t hx
  obtain ⟨n, hn, hun, hnm⟩ := ht.nxt
  have hnear := hs.linked.max_near
  unfold ringSize at hnear
  rw [show t.sndNxt = _ from hn, show t.sndUna = _ from ht.una, show t.sndMax = _ from ht.max,
    serialAt_sub_toNat hun (by omega), serialAt_sub_toNat hs.linked.una_le (by omega)]
  omega

/-- The other end's `rcv_nxt` lies between `snd_una` and `snd_max`. -/
theorem WorldOk.rcv_between (h : WorldOk True w) (hx : (w.side x).ep = .live s t)
    (hy : (w.side !x).ep = .live s' t') (hst : t'.state ≠ .synSent) :
    (t'.rcvNxt - t.sndUna).toNat ≤ (t.sndMax - t.sndUna).toNat := by
  have hs := h.side x
  have hs' := h.side (!x)
  rw [Bool.not_not] at hs'
  have ht := hs.tied s t hx
  obtain ⟨-, hr, -⟩ := (hs'.tied s' t' hy).heard hst
  have h1 := hs.linked.una_rcv
  have h2 := hs'.linked.rcv_max trivial
  have hnear := hs.linked.max_near
  unfold ringSize at hnear
  rw [show t'.rcvNxt = _ from hr, show t.sndUna = _ from ht.una, show t.sndMax = _ from ht.max,
    serialAt_sub_toNat h1 (by omega), serialAt_sub_toNat (h1.trans h2) (by omega)]
  omega

/-- No acknowledgement that arrives is of something not sent. -/
theorem WorldOk.ack_le (h : WorldOk True w) (hx : (w.side x).ep = .live s t) {m : Seg} {i : Seq}
    {r : Bool} (ha : Allowed w x (.segment m i r)) (hrst : m.flags.rst = false)
    (hack : m.flags.ack = true) : seqLt t.sndMax m.ack = false := by
  obtain ⟨f, hf, rfl, hrec⟩ := ha
  have hs' := h.side (!x)
  have hfl := h.wire (!x) f hf
  rw [Bool.not_not] at hs' hfl
  obtain ⟨-, hok⟩ := hfl.resolve_left (by simp [hrst])
  obtain ⟨h1, h2, h3⟩ := hok hack
  have h4 := hs'.linked.rcv_max trivial
  have h5 := hrec.2 hack
  rw [← Bool.not_eq_true, h1, show t.sndMax = _ from ((h.side x).tied s t hx).max]
  unfold seqLt
  rw [serialAt_slt h5 (by omega)]
  omega

end

/-- **Nothing is acknowledged that was not sent.**  In every world that is reached without a
counted-out probe and without the acknowledgement of a withdrawn `FIN`: the numbers of an
end are in order, the other end's `rcv_nxt` lies between `snd_una` and `snd_max`, every
segment of the end has its `SYN` at number `0`, its bytes from number `1` on and its `FIN`
at the number behind the last byte, and no acknowledgement is one of something beyond
`snd_max`. -/
theorem acknowledged_was_sent {w : World} (h : Reach Clean w) (x : Bool) {s : Sock} {t : Tcb}
    (hx : (w.side x).ep = .live s t) :
    (t.sndNxt - t.sndUna).toNat ≤ (t.sndMax - t.sndUna).toNat ∧
    (∀ s' t', (w.side !x).ep = .live s' t' → t'.state ≠ .synSent →
      (t'.rcvNxt - t.sndUna).toNat ≤ (t.sndMax - t.sndUna).toNat) ∧
    (w.side x).track.max ≤ (w.side x).track.sent.length + 2 ∧
    (∀ f ∈ w.wire x, f.seg.flags.rst = false →
      ∃ n, f.seg.seq = serialAt (w.side x).track.iss n ∧
        (f.seg.flags.syn = true → n = 0 ∧ f.seg.data = [] ∧ f.seg.flags.fin = false) ∧
        (f.seg.flags.syn = false →
          1 ≤ n ∧ f.seg.data <+: (w.side x).track.sent.drop (n - 1)) ∧
        (f.seg.flags.fin = true → n = 1 + (w.side x).track.sent.length ∧ f.seg.data = [])) ∧
    (∀ m i r, Allowed w x (.segment m i r) → m.flags.rst = false → m.flags.ack = true →
      seqLt t.sndMax m.ack = false) := by
  have hw : WorldOk True w := h.worldOk (fun _ _ _ _ hc => hc)
  refine ⟨una_nxt_max h hx, ?_, (hw.side x).linked.one_fin trivial, ?_, ?_⟩
  · intro s' t' hy hst
    exact hw.rcv_between hx hy hst
  · intro f hf hrst
    obtain ⟨⟨hseq, hc⟩, -⟩ := (hw.wire x f hf).resolve_left (by simp [hrst])
    refine ⟨f.seqN, hseq, hc.syn, fun hsyn => ⟨hc.pos hsyn, hc.text⟩, ?_⟩
    intro hfin
    obtain ⟨-, h2, -, -, h5⟩ := hc.fin hfin
    exact ⟨h5 trivial, h2⟩
  · intro m i r ha hrst hack
    exact hw.ack_le hx ha hrst hack

instance (w : World) (x : Bool) (c : Call) : Decidable (Clean w x c) :=
  match c with
  | .segment m _ _ =>
    match h : (w.side x).ep with
    | .live s t =>
      decidable_of_iff (¬ Overrun (w.side !x).track s m ∧ ¬ Withdrawn s t m) (by simp [Clean, h])
    | .fresh _ | .dead _ => isTrue (by simp [Clean, h])
  | .connect _ | .send _ | .recv _ _ | .shutdown _ _ | .close | .icmp _ | .tick => isTrue trivial

/-- No step of the run spoils the numbers. -/
def World.cleanRun (w : World) : List (Bool × Env × Move) → Bool
  | [] => true
  | (x, env, m) :: l =>
    match w.pick x m with
    | some c => decide (Clean w x c) && (w.act x env c).cleanRun l
    | none => false

theorem Reach.cleanRun {l : List (Bool × Env × Move)} : ∀ {w w' : World},
    Reach Clean w → w.run l = some w' → w.cleanRun l = true → Reach Clean w' := by
  induction l with
  | nil =>
    intro w w' h he _
    cases he
    exact h
  | cons a l ih =>
    intro w w' h he hc
    obtain ⟨x, env, m⟩ := a
    unfold World.run at he
    unfold World.cleanRun at hc
    cases hp : w.pick x m with
    | none => simp [hp] at he
    | some c =>
      simp only [hp, Bool.and_eq_true, decide_eq_true_eq] at he hc
      exact ih (.step h x env c (allowed_of_pick hp) hc.1) he hc.2

/-- The end has its control block. -/
def Endpoint.isLive : Endpoint → Bool
  | .live _ _ => true
  | _ => false

theorem acknowledged_was_sent_twoBytes :
    ∃ w s t, (World.start id).run twoBytes = some w ∧ (w.side false).ep = .live s t ∧
      (w.side false).track.max = 4 ∧ 4 ≤ (w.side false).track.sent.length + 2 ∧
      (t.sndNxt - t.sndUna).toNat ≤ (t.sndMax - t.sndUna).toNat := by
  have hclean : (World.start id).cleanRun twoBytes = true := by decide +kernel
  have hrun : ((World.start id).run twoBytes).map (fun w =>
      ((w.side false).track.max, (w.side false).ep.isLive)) = some (4, true) := by decide +kernel
  obtain ⟨w, hw, he⟩ := Option.map_eq_some_iff.1 hrun
  simp only [Prod.mk.injEq] at he
  cases hep : (w.side false).ep with
  | live s t =>
    have h := acknowledged_was_sent (Reach.cleanRun (.start id) hw hclean) false hep
    exact ⟨w, s, t, hw, hep, he.1, he.1 ▸ h.2.2.1, h.1⟩
  | fresh l => simp [hep, Endpoint.isLive] at he
  | dead o => simp [hep, Endpoint.isLive] at he

/-- **No byte is lost**: of the bytes an end has accepted, those in front of `snd_una` have been
read at the other end or wait there, if that end still reads, and its buffer holds the others. -/
theorem unacknowledged_kept {w : World} (h : Reach (fun _ _ _ => True) w) (x : Bool) {s : Sock}
    {t : Tcb} (hx : (w.side x).ep = .live s t) :
    t.sndUna = serialAt (w.side x).track.iss (w.side x).track.una ∧
    (w.side x).track.sent = (w.side x).track.sent.take ((w.side x).track.una - 1) ++ s.tx.toList ∧
    ((w.side !x).ep.reading → (w.side x).track.sent.take ((w.side x).track.una - 1) <+:
      (w.side !x).track.got ++ (w.side !x).ep.rx) := by
  have hw : WorldOk False w := h.worldOk fun hf => hf.elim
  have htied := (hw.side x).tied s t hx
  have hall := (hw.side !x).linked.all
  rw [Bool.not_not] at hall
  refine ⟨htied.una, ?_, fun hr => ?_⟩
  · rw [htied.text, List.take_append_drop]
  · rw [hall hr]
    exact List.take_prefix_take_left (Nat.sub_le_sub_right (hw.side x).linked.una_rcv 1)

theorem unacknowledged_kept_twoBytes : ∃ w s t, (World.start id).run twoBytes = some w ∧
    (w.side false).ep = .live s t ∧
    (w.side false).track.sent =
      (w.side false).track.sent.take ((w.side false).track.una - 1) ++ s.tx.toList := by
  have hrun : ((World.start id).run twoBytes).map (fun w => (w.side false).ep.isLive) =
      some true := by decide +kernel
  obtain ⟨w, hw, he⟩ := Option.map_eq_some_iff.1 hrun
  cases hep : (w.side false).ep with
  | live s t =>
    exact ⟨w, s, t, hw, hep, (unacknowledged_kept (Reach.run (.start id) hw) false hep).2.1⟩
  | _ => simp [hep, Endpoint.isLive] at he

/-! ## Where it fails -/

/-- The sender fills the buffer of the other end, and hears that the window is closed. -/
def filled : List (Bool × Env × Move) :=
  meet ++ [(false, host 0, .call (.send (List.replicate 8192 7))),
    (true, host 0, .arrive 2 0 true), (true, host 0, .arrive 3 0 true),
    (false, host 0, .arrive 2 0 true)]

/-- The sender has one more byte, the other program reads a little less than half of the
buffer, and the probe arrives: it is taken, and its acknowledgement comes back. -/
def probed : List (Bool × Env × Move) :=
  filled ++ [(false, host 0, .call (.send [1])), (true, host 0, .call (.recv 4000 false)),
    (false, host 200, .call .tick), (true, host 200, .arrive 4 0 true)]

/-- The other end has emptied its buffer and said so, the last byte and the `FIN` are sent
and taken.  Then an old segment closes the window again, the timer withdraws the `FIN`,
and its acknowledgement arrives. -/
def ended : List (Bool × Env × Move) :=
  filled ++ [(true, host 0, .call (.recv 8192 false)), (false, host 0, .arrive 3 0 true),
    (false, host 0, .call (.send [1])), (false, host 0, .call (.shutdown false true)),
    (true, host 0, .arrive 4 0 true), (true, host 0, .arrive 5 0 true),
    (false, host 0, .arrive 2 0 true), (false, host 200, .call .tick),
    (false, host 200, .arrive 5 0 true)]

/-- The numbers of an end: `snd_una`, `snd_max`, `rcv_nxt`. -/
def Endpoint.numbers : Endpoint → Option (Seq × Seq × Seq)
  | .live _ t => some (t.sndUna, t.sndMax, t.rcvNxt)
  | _ => none

/-- The `FIN`s an end has sent. -/
def World.fins (w : World) (x : Bool) : List Seq :=
  ((w.wire x).filter fun f => f.seg.flags.fin).map fun f => f.seg.seq

/-- A probe that is taken is beyond `snd_max`, so its acknowledgement, the last segment of
the other end, is thrown away; and a `FIN` that was withdrawn is sent again with a second
number. -/
theorem probe_not_counted_and_fin_sent_twice :
    (∃ w, (World.start id).run probed = some w ∧
      (w.side false).ep.numbers = some (9193, 9193, 5001) ∧
      (w.side true).ep.numbers = some (5001, 5001, 9194) ∧
      (w.wire true).getLast?.map (fun f => f.seg.ack) = some 9194 ∧
      ((World.start id).run (probed ++ [(false, host 200, .arrive 3 0 true)])).bind
        (fun w' => (w'.side false).ep.numbers) = some (9193, 9193, 5001)) ∧
    (∃ w, (World.start id).run ended = some w ∧ w.fins false = [9194, 9195] ∧
      (w.side true).ep.numbers = some (5001, 5001, 9195)) := by
  have h1 : ((World.start id).run probed).map (fun w => ((w.side false).ep.numbers,
      (w.side true).ep.numbers, (w.wire true).getLast?.map (fun f => f.seg.ack))) =
      some (some (9193, 9193, 5001), some (5001, 5001, 9194), some 9194) := by decide +kernel
  have h2 : ((World.start id).run (probed ++ [(false, host 200, .arrive 3 0 true)])).bind
      (fun w' => (w'.side false).ep.numbers) = some (9193, 9193, 5001) := by decide +kernel
  have h3 : ((World.start id).run ended).map (fun w => (w.fins false, (w.side true).ep.numbers)) =
      some ([9194, 9195], some (5001, 5001, 9195)) := by decide +kernel
  constructor
  · obtain ⟨w, hw, he⟩ := Option.map_eq_some_iff.1 h1
    simp only [Prod.mk.injEq] at he
    exact ⟨w, hw, he.1, he.2.1, he.2.2, h2⟩
  · obtain ⟨w, hw, he⟩ := Option.map_eq_some_iff.1 h3
    simp only [Prod.mk.injEq] at he
    exact ⟨w, hw, he.1, he.2⟩

end Tortoise.Net
