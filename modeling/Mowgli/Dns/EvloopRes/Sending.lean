import Mowgli.Dns.EvloopRes
/-!
# The nameserver that a query is sent to

`send_res_msg` goes twice through the nameservers, from another one each
time. The first pass is for those that seem to work and now and then one
that seems broken; the second one is for those that seem broken. Between
them they leave no nameserver out.
-/

namespace Mowgli

namespace Dns

open Prog

variable {E : DnsStop → Prop} {s : DnsEvloop}

/-- A nameserver of `k` is come to, from wherever the passes start. -/
theorem mem_rotated {k n : ℕ} (start : ℕ) (h : n < k) : n ∈ (List.range k).map fun i => (i + start) % k := by
  refine List.mem_map.2 ⟨(n + (k - start % k)) % k, List.mem_range.2 (Nat.mod_lt _ (by omega)), ?_⟩
  have hstart : start % k ≤ k := (Nat.mod_lt _ (by omega)).le
  have hsum : n + (k - start % k) + start = n + k + k * (start / k) := by
    have := Nat.mod_add_div start k
    omega
  rw [Nat.mod_add_mod, hsum, Nat.add_mul_mod_self_left, Nat.add_mod_right, Nat.mod_eq_of_lt h]

/-- What a pass over `order` comes to: its sends are `log`, and it ends at the
first that is taken. -/
structure Passed (tries : ℕ → Bool) (order : List ℕ) (sendto : ℕ → Bool) (log : List (ℕ × Bool)) (ns : Option ℕ) :
    Prop where
  outcomes : log.map Prod.snd = (List.range log.length).map sendto
  tried : ∀ a ∈ log, a.1 ∈ order ∧ tries a.1
  accepted : ∀ n, (n, true) ∈ log ↔ ns = some n
  refused : ns = none → ∀ n ∈ order, tries n → (n, false) ∈ log

theorem Passed.skip {tries : ℕ → Bool} {order : List ℕ} {sendto : ℕ → Bool} {log : List (ℕ × Bool)} {n : ℕ}
    {ns : Option ℕ} (h : Passed tries order sendto log ns) (hn : ¬ tries n) : Passed tries (n :: order) sendto log ns where
  outcomes := h.outcomes
  tried a ha := ⟨List.mem_cons_of_mem _ (h.tried a ha).1, (h.tried a ha).2⟩
  accepted := h.accepted
  refused hns m hm ht := by
    rcases List.mem_cons.1 hm with rfl | hm
    · exact absurd ht hn
    · exact h.refused hns m hm ht

/-- A send that is taken ends the pass. -/
theorem passed_sent {tries : ℕ → Bool} {order : List ℕ} {sendto : ℕ → Bool} {n : ℕ} (hn : tries n) (hs : sendto 0) :
    Passed tries (n :: order) sendto [(n, true)] (some n) where
  outcomes := by simp [hs]
  tried a ha := by
    obtain rfl := List.mem_singleton.1 ha
    exact ⟨List.mem_cons_self .., hn⟩
  accepted m := by simp [eq_comm]
  refused h := by cases h

/-- After one that is refused, the pass goes on. -/
theorem Passed.refuse {tries : ℕ → Bool} {order : List ℕ} {sendto : ℕ → Bool} {log : List (ℕ × Bool)} {n : ℕ}
    {ns : Option ℕ} (h : Passed tries order (fun i => sendto (i + 1)) log ns) (hn : tries n) (hs : ¬ sendto 0) :
    Passed tries (n :: order) sendto ((n, false) :: log) ns where
  outcomes := by
    rw [List.map_cons, h.outcomes, List.length_cons, List.range_succ_eq_map, List.map_cons, List.map_map]
    simp [hs, Function.comp_def]
  tried a ha := by
    rcases List.mem_cons.1 ha with rfl | ha
    · exact ⟨List.mem_cons_self .., hn⟩
    · exact ⟨List.mem_cons_of_mem _ (h.tried a ha).1, (h.tried a ha).2⟩
  accepted m := by simp [← h.accepted]
  refused hns m hm ht := by
    rcases List.mem_cons.1 hm with rfl | hm
    · exact List.mem_cons_self ..
    · exact List.mem_cons_of_mem _ (h.refused hns m hm ht)

/-- A pass ends, and all it changes is what was sent. -/
theorem sendLoop_passes (tries : ℕ → Bool) (order : List ℕ) (s : DnsEvloop) :
    Ends E (sendLoop tries order) s fun ns s' => ∃ log, Passed tries order s.sendto log ns ∧
      s' = { s with sendto := fun i => s.sendto (i + log.length), attempts := s.attempts ++ log } := by
  induction order generalizing s with
  | nil => exact ⟨[], ⟨rfl, by simp, by simp, by simp⟩, by simp⟩
  | cons n order ih =>
    rw [sendLoop]
    split_ifs with hn
    · simp only [vioSendto, ends_bind, ends_get, ends_set, ends_pure]
      split_ifs with hs
      · exact ⟨[(n, true)], passed_sent hn hs, by simp [hs]⟩
      · refine (ih _).mono ?_
        rintro ns s' ⟨log, hlog, hs'⟩
        refine ⟨(n, false) :: log, hlog.refuse hn hs, ?_⟩
        rw [hs']
        simp [hs, add_assoc]
    · refine (ih s).mono ?_
      rintro ns s' ⟨log, hlog, hs'⟩
      exact ⟨log, hlog.skip hn, hs'⟩

/-- What `send_res_msg` comes to, where `first` are the sends of the first pass
and `second` those of the second. -/
structure Sent (s : DnsEvloop) (first second : List (ℕ × Bool)) (ns : Option ℕ) : Prop where
  /-- The sends go out as the world has it. -/
  outcomes : (first ++ second).map Prod.snd = (List.range (first ++ second).length).map s.sendto
  configured : ∀ a ∈ first ++ second, a.1 < s.nsaddrList.length
  /-- The nameserver that is returned is the one that took the message. -/
  accepted : ∀ n, (n, true) ∈ first ++ second ↔ ns = some n
  /-- Where it returns -1, all of them were asked and refused. -/
  refused : ns = none → ∀ n < s.nsaddrList.length, (n, false) ∈ first ++ second
  working : ∀ a ∈ first, s.timeoutCount a.1 = 0 ∨ retryfreq (s.timeoutCount a.1) ∣ s.retrycnt + 1
  broken : ∀ a ∈ second, s.timeoutCount a.1 ≠ 0
  /-- Before the second pass, all that seem to work have refused. -/
  preferred : second ≠ [] → ∀ n < s.nsaddrList.length, s.timeoutCount n = 0 → (n, false) ∈ first

section

variable {order : List ℕ} {tries : ℕ → Bool} {first second : List (ℕ × Bool)} {ns : Option ℕ} {n : ℕ}

/-- The first pass was enough. -/
theorem Passed.sent (horder : ∀ n, n ∈ order ↔ n < s.nsaddrList.length)
    (htries : ∀ n, tries n ↔ s.timeoutCount n = 0 ∨ retryfreq (s.timeoutCount n) ∣ s.retrycnt + 1)
    (h : Passed tries order s.sendto first (some n)) : Sent s first [] (some n) where
  outcomes := by simpa using h.outcomes
  configured a ha := (horder a.1).1 (h.tried a (by simpa using ha)).1
  accepted := by simpa using h.accepted
  refused hns := by cases hns
  working a ha := (htries a.1).1 (h.tried a ha).2
  broken a ha := absurd ha List.not_mem_nil
  preferred hne := absurd rfl hne

/-- The second pass goes to those that seem broken. -/
theorem Passed.sent_second (horder : ∀ n, n ∈ order ↔ n < s.nsaddrList.length)
    (htries : ∀ n, tries n ↔ s.timeoutCount n = 0 ∨ retryfreq (s.timeoutCount n) ∣ s.retrycnt + 1)
    (h₁ : Passed tries order s.sendto first none)
    (h₂ : Passed (fun n => s.timeoutCount n ≠ 0) order (fun i => s.sendto (i + first.length)) second ns) :
    Sent s first second ns where
  outcomes := by
    rw [List.map_append, h₁.outcomes, h₂.outcomes, List.length_append, List.range_add, List.map_append, List.map_map]
    simp [Function.comp_def, add_comm]
  configured a ha := by
    rcases List.mem_append.1 ha with ha | ha
    · exact (horder a.1).1 (h₁.tried a ha).1
    · exact (horder a.1).1 (h₂.tried a ha).1
  accepted n := by
    have hfirst := h₁.accepted n
    rw [List.mem_append, hfirst, h₂.accepted]
    simp
  refused hns n hn := by
    by_cases h0 : s.timeoutCount n = 0
    · exact List.mem_append_left _ (h₁.refused rfl n ((horder n).2 hn) ((htries n).2 (.inl h0)))
    · exact List.mem_append_right _ (h₂.refused hns n ((horder n).2 hn) (by simpa using h0))
  working a ha := (htries a.1).1 (h₁.tried a ha).2
  broken a ha := by simpa using (h₂.tried a ha).2
  preferred _ n hn h0 := h₁.refused rfl n ((horder n).2 hn) ((htries n).2 (.inl h0))

end

/-- **The passes of `send_res_msg` cover the nameservers**, whatever their
timeouts and wherever the passes start. -/
theorem sendResMsg_covers {rcount : ℕ} (hrcount : 1 ≤ rcount) (s : DnsEvloop) :
    Ends (fun _ => False) (sendResMsg rcount) s fun ns s' => ∃ first second, Sent s first second ns ∧
      s'.attempts = s.attempts ++ (first ++ second) := by
  have horder : ∀ n, n ∈ ((List.range s.nsaddrList.length).map fun i => (i + rcount - 1) % s.nsaddrList.length) ↔
      n < s.nsaddrList.length := by
    intro n
    constructor
    · intro h
      obtain ⟨i, hi, rfl⟩ := List.mem_map.1 h
      have := List.mem_range.1 hi
      exact Nat.mod_lt _ (by omega)
    · intro h
      simpa only [Nat.add_sub_assoc hrcount] using mem_rotated (rcount - 1) h
  have htries : ∀ n, (s.timeoutCount n = 0 || (s.retrycnt + 1) % retryfreq (s.timeoutCount n) = 0 : Bool) ↔
      s.timeoutCount n = 0 ∨ retryfreq (s.timeoutCount n) ∣ s.retrycnt + 1 := fun n => by
    simp only [Bool.or_eq_true, decide_eq_true_eq, Int.dvd_iff_emod_eq_zero]
  rw [sendResMsg, ends_bind, ends_modify, ends_bind, ends_get]
  refine (sendLoop_passes _ _ _).bind fun ns s' ⟨first, hfirst, hs'⟩ => ?_
  cases ns with
  | some n => exact ⟨first, [], hfirst.sent horder htries, by simp [hs']⟩
  | none =>
    subst hs'
    refine (sendLoop_passes _ _ _).mono fun ns s'' ⟨second, hsecond, hs''⟩ => ?_
    exact ⟨first, second, hfirst.sent_second horder htries hsecond, by simp [hs'']⟩

theorem sendResMsg_covers_two :
    Ends (fun _ => False) (sendResMsg 2) (.init [.zero, .zero] (.ofBuffer []) 0 [] (fun i => i = 1) []) fun ns s' =>
      ∃ first second, Sent (.init [.zero, .zero] (.ofBuffer []) 0 [] (fun i => i = 1) []) first second ns ∧
        s'.attempts = [] ++ (first ++ second) :=
  sendResMsg_covers (by decide) _

end Dns

end Mowgli
