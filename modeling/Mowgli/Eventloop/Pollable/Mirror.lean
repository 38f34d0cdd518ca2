import Mowgli.Eventloop.Pollable.Life
import Mathlib.Logic.Function.Basic
/-!
# What the kernel has, by descriptor

Epoll, kqueue and event ports keep what is polled by file descriptor, each in its
own way. `Mirrored` says of any of them that the kernel has for each live pollable
what that one is to have, and nothing else. It is kept where a pollable and what
the kernel has for it change together.
-/

namespace Mowgli

namespace PollLoop

variable {K : Type} {want want' : Addr → Pollable → K} {k₀ k : K} {el el' : PollLoop (ℤ → K)} {a : Addr} {p : Pollable}

/-- The kernel has what live pollables are to have, and for other descriptors `k₀`. -/
structure Mirrored (want : Addr → Pollable → K) (k₀ : K) (el : PollLoop (ℤ → K)) : Prop where
  /-- No two live pollables share a descriptor. -/
  own : ∀ a b p q, el.pollables.get a = some p → el.pollables.get b = some q →
    p.removed = false → q.removed = false → p.fd = q.fd → a = b
  has : ∀ a p, el.pollables.get a = some p → p.removed = false → el.poller p.fd = want a p
  absent : ∀ fd, (∀ a p, el.pollables.get a = some p → p.removed = false → p.fd ≠ fd) → el.poller fd = k₀

theorem mirrored_create : (create (P := ℤ → K) fun _ => k₀).Mirrored want k₀ := by
  have hget : ∀ a, (create (P := ℤ → K) fun _ => k₀).pollables.get a = none := Store.get_empty
  refine ⟨fun a b p q hp => ?_, fun a p hp => ?_, fun _ _ => rfl⟩
  · exact absurd (hp.symm.trans (hget a)) (Option.some_ne_none p)
  · exact absurd (hp.symm.trans (hget a)) (Option.some_ne_none p)

/-- What the kernel has for a descriptor is for the live pollable that has it. -/
theorem Mirrored.exists_live (h : el.Mirrored want k₀) {fd : ℤ} (hne : el.poller fd ≠ k₀) :
    ∃ a p, el.pollables.get a = some p ∧ p.removed = false ∧ p.fd = fd ∧ el.poller fd = want a p := by
  by_contra hno
  refine hne (h.absent fd fun a p hp hr hfd => hno ⟨a, p, hp, hr, hfd, ?_⟩)
  rw [← hfd]
  exact h.has a p hp hr

/-- **A pollable and what the kernel has for it change together**, the pollable being live afterwards
or not. -/
theorem Mirrored.change (h : el.Mirrored want k₀) (hp : el.pollables.get a = some p) (hr : p.removed = false)
    (hwant : ∀ b ≠ a, want' b = want b) (hpoll : el'.poller = Function.update el.poller p.fd k)
    (hother : ∀ b ≠ a, el'.pollables.get b = el.pollables.get b)
    (hlive : ∀ q, el'.pollables.get a = some q → q.removed = false → q.fd = p.fd ∧ k = want' a q)
    (hgone : ¬ el'.Live a → k = k₀) : el'.Mirrored want' k₀ := by
  -- what is live now was live before, with the same descriptor
  have hbefore : ∀ b r, el'.pollables.get b = some r → r.removed = false →
      ∃ r', el.pollables.get b = some r' ∧ r'.removed = false ∧ r'.fd = r.fd := by
    intro b r hb hrr
    by_cases hba : b = a
    · subst hba
      exact ⟨p, hp, hr, (hlive r hb hrr).1.symm⟩
    · exact ⟨r, (hother b hba).symm.trans hb, hrr, rfl⟩
  constructor
  · intro b c r s hb hc hrr hsr hfd
    obtain ⟨r', hb', hrr', hr'⟩ := hbefore b r hb hrr
    obtain ⟨s', hc', hsr', hs'⟩ := hbefore c s hc hsr
    exact h.own b c r' s' hb' hc' hrr' hsr' (hr'.trans (hfd.trans hs'.symm))
  · intro b r hb hrr
    rw [hpoll]
    by_cases hba : b = a
    · subst hba
      obtain ⟨hfd, hk⟩ := hlive r hb hrr
      rw [hfd, Function.update_self, hk]
    · have hb' := (hother b hba).symm.trans hb
      rw [Function.update_of_ne fun heq => hba (h.own _ _ _ _ hb' hp hrr hr heq), hwant b hba]
      exact h.has b r hb' hrr
  · intro fd hfd
    rw [hpoll]
    by_cases hpfd : fd = p.fd
    · rw [hpfd, Function.update_self]
      refine hgone fun ⟨q, hq, hqr⟩ => hfd a q hq hqr ?_
      rw [hpfd, (hlive q hq hqr).1]
    · rw [Function.update_of_ne hpfd]
      refine h.absent fd fun b r hb hrr => ?_
      by_cases hba : b = a
      · subst hba
        rw [hp, Option.some_inj] at hb
        exact hb ▸ Ne.symm hpfd
      · exact hfd b r ((hother b hba).trans hb) hrr

/-- Pollables that are not live come and go. -/
theorem Mirrored.congr (h : el.Mirrored want k₀) (hpoll : el'.poller = el.poller)
    (hget : ∀ b r, r.removed = false → (el'.pollables.get b = some r ↔ el.pollables.get b = some r)) :
    el'.Mirrored want k₀ := by
  constructor
  · intro b c r s hb hc hrr hsr
    exact h.own b c r s ((hget b r hrr).1 hb) ((hget c s hsr).1 hc) hrr hsr
  · intro b r hb hrr
    rw [hpoll]
    exact h.has b r ((hget b r hrr).1 hb) hrr
  · intro fd hfd
    rw [hpoll]
    exact h.absent fd fun b r hb hrr => hfd b r ((hget b r hrr).2 hb) hrr

/-- What is there after `mowgli_pollable_create` was there before, or is the new pollable. -/
theorem get_pollableCreate {P : Type} {el : PollLoop P} {fd : ℤ} {userdata : Option Addr} {b : Addr} {r : Pollable}
    (hb : (el.pollableCreate fd userdata).2.pollables.get b = some r) :
    b = el.allocated ∧ r = ⟨fd, 0, none, none, userdata, ⟨none, none, none⟩, false⟩ ∨ el.pollables.get b = some r := by
  rw [show (el.pollableCreate fd userdata).2.pollables = el.pollables.set el.allocated _ from rfl, Store.get_set] at hb
  split_ifs at hb with hba
  · exact Or.inl ⟨hba, (Option.some.inj hb).symm⟩
  · exact Or.inr hb

/-- A new pollable has nothing yet, and its descriptor is its own. -/
theorem Mirrored.create (h : el.Mirrored want k₀) (hk : el.Kept) {fd : ℤ}
    (hfd : ∀ a p, el.pollables.get a = some p → p.removed = false → p.fd ≠ fd) (userdata : Option Addr)
    (hnew : want el.allocated ⟨fd, 0, none, none, userdata, ⟨none, none, none⟩, false⟩ = k₀) :
    (el.pollableCreate fd userdata).2.Mirrored want k₀ := by
  constructor
  · intro b c r s hb hc hrr hsr hfds
    rcases get_pollableCreate hb with ⟨rfl, rfl⟩ | hb
    · rcases get_pollableCreate hc with ⟨rfl, rfl⟩ | hc
      · rfl
      · exact absurd hfds.symm (hfd c s hc hsr)
    · rcases get_pollableCreate hc with ⟨rfl, rfl⟩ | hc
      · exact absurd hfds (hfd b r hb hrr)
      · exact h.own _ _ _ _ hb hc hrr hsr hfds
  · intro b r hb hrr
    rcases get_pollableCreate hb with ⟨rfl, rfl⟩ | hb
    · exact (h.absent fd hfd).trans hnew.symm
    · exact h.has _ _ hb hrr
  · intro fd' hne
    refine h.absent fd' fun b r hb hrr => hne b r ?_ hrr
    rw [← hb]
    exact Store.get_set_of_ne _ _ fun hba => hk.not_live_allocated (Store.mem_live.2 ⟨r, hba ▸ hb⟩)

end PollLoop

end Mowgli
