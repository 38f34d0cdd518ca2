import Mowgli.Dns.EvloopReslib.Read
/-!
# Names that are put in a message

`mowgli_dns_ns_name_pack` puts a pointer for the rest of a name that is in the
message already, as `mowgli_dns_dn_find` finds it, where upper and lower case are
the same. What it saves among the earlier names begins a name again, so that
however many names are put in a message, each is read back where it was put, up
to the case of its letters.
-/

namespace Mowgli

namespace DnsName

variable {m msg msg' t t' rest : List UInt8} {cp sp e c fuel dst : ℕ} {label : List UInt8}
  {ls ds : List (List UInt8)} {dnptrs : List ℕ}

/-- The names are the same but for the case. -/
def SameName (ls ds : List (List UInt8)) : Prop := ls.map (List.map mklower) = ds.map (List.map mklower)

theorem SameName.refl (ls : List (List UInt8)) : SameName ls ls := rfl

theorem SameName.cons {l d : List UInt8} (h : l.map mklower = d.map mklower) (hls : SameName ls ds) :
    SameName (l :: ls) (d :: ds) := by
  rw [SameName, List.map_cons, List.map_cons, h, hls]

/-- Names that are the same have as many bytes. -/
theorem SameName.length_wire (h : SameName ls ds) : (wire ls).length = (wire ds).length := by
  have hmap : ∀ ls : List (List UInt8), (ls.map (List.map mklower)).flatten.length = ls.flatten.length := fun ls => by
    rw [← List.map_flatten, List.length_map]
  rw [DnsName.length_wire, DnsName.length_wire, ← hmap ls, h, hmap]

/-! ## Looking for a name -/

theorem getElem?_of_name (h : NameAt m cp ls e c) : ∃ b, m[cp]? = some b ∧ (b = 0 → ls = []) := by
  cases h with
  | root hx => exact ⟨_, hx, fun _ => rfl⟩
  | label hl hpre _ =>
    obtain ⟨a, ha, hne, -⟩ := LabelCode.label_first hl hpre
    exact ⟨a, ha, fun h0 => absurd h0 hne⟩
  | pointer ha hptr _ _ =>
    refine ⟨_, ha, ?_⟩
    rintro rfl
    exact absurd hptr labelCode.stop_not_pointer

theorem compareLabel_eq (h : t <+: msg.drop cp) (hlen : t'.length = t.length) :
    compareLabel msg t.length (t' ++ rest) cp = some (decide (t'.map mklower = t.map mklower)) := by
  induction t generalizing t' cp with
  | nil =>
    obtain rfl := List.length_eq_zero_iff.1 hlen
    rfl
  | cons b t ih =>
    obtain ⟨b', t', rfl⟩ := List.exists_cons_of_length_eq_add_one hlen
    have hrest : t <+: msg.drop (cp + 1) := (append_prefix_drop (l := [b]).1 h).2
    rw [List.length_cons, compareLabel]
    simp only [List.cons_append, List.head?_cons, getElem?_of_prefix_drop h, List.tail_cons, List.map_cons]
    by_cases hb : mklower b' = mklower b
    · rw [if_neg (not_not.2 hb), ih hrest (by simpa using hlen)]
      simp only [hb, List.cons.injEq, true_and]
    · rw [if_pos hb]
      simp only [List.cons.injEq, hb, false_and, decide_false]

/-- What is in front of labels: the first byte of one, or the root. -/
theorem head_wire (rest : List UInt8) (hds : ∀ d ∈ ds, IsLabel d) : ∃ b, (wire ds ++ rest).head? = some b ∧ (b = 0 ↔ ds = []) := by
  cases ds with
  | nil => exact ⟨0, rfl, by simp⟩
  | cons d ds =>
    obtain ⟨n, u, rfl, hn, -⟩ := (hds d (List.mem_cons_self ..)).exists_cons
    exact ⟨n, rfl, by simp [hn]⟩

/-- **The comparison of a name with one in the message** comes to an end, and if it
finds the names to be the same, they are. -/
theorem dnMatchLoop_sound (sp : ℕ) (rest : List UInt8) (h : NameAt msg cp ls e c) (hds : ∀ d ∈ ds, IsLabel d) (hfuel : (wire ds).length + c < fuel) :
    ∃ r, dnMatchLoop msg sp fuel (wire ds ++ rest) cp = some r ∧ ∀ off, r = .found off → off = sp ∧ SameName ds ls := by
  induction h generalizing ds fuel with
  | root hx =>
    obtain ⟨fuel, rfl⟩ : ∃ f, fuel = f + 1 := ⟨fuel - 1, by omega⟩
    refine ⟨.next, ?_, nofun⟩
    rw [dnMatchLoop, hx]
    exact if_pos rfl
  | @label x e c label ls hl hpre h ih =>
    obtain ⟨fuel, rfl⟩ : ∃ f, fuel = f + 1 := ⟨fuel - 1, by omega⟩
    obtain ⟨n, t, rfl, hn, hflags, hlen⟩ := hl.exists_cons
    have hbyte := getElem?_of_prefix_drop hpre
    have htail : t <+: msg.drop (x + 1) := (append_prefix_drop (l := [n]).1 hpre).2
    rw [dnMatchLoop]
    simp only [hbyte, if_neg hn]
    rcases hflags with hflags | rfl
    · rw [labellen_text hflags] at hlen
      have hlen : n.toNat = t.length := Option.some.inj (Option.some.inj hlen)
      rw [if_pos hflags]
      cases ds with
      | nil => exact ⟨.next, if_pos hn, nofun⟩
      | cons d ds =>
        obtain ⟨hd, hrest⟩ := List.forall_mem_cons.1 hds
        obtain ⟨n', t', rfl, -, -, hlen'⟩ := hd.exists_cons
        rw [wire_cons, List.cons_append, List.cons_append]
        dsimp only
        by_cases hne : n ≠ n'
        · exact ⟨.next, if_pos hne, nofun⟩
        obtain rfl := not_not.1 hne
        rw [labellen_text hflags] at hlen'
        have hlen' : n.toNat = t'.length := Option.some.inj (Option.some.inj hlen')
        rw [if_neg hne, List.append_assoc, hlen, compareLabel_eq htail (hlen' ▸ hlen)]
        by_cases hsame : t'.map mklower = t.map mklower
        · have hlabel : (n :: t').map mklower = (n :: t).map mklower := by rw [List.map_cons, List.map_cons, hsame]
          obtain ⟨b, hb, hb0⟩ := head_wire rest hrest
          obtain ⟨b', hb', hb0'⟩ := getElem?_of_name h
          have hplace : x + 1 + t.length = x + (n :: t).length := by
            rw [List.length_cons]
            omega
          have hdrop : (t' ++ (wire ds ++ rest)).drop t.length = wire ds ++ rest := by
            rw [← hlen, hlen', List.drop_left]
          rw [wire_cons, List.length_append, List.length_cons] at hfuel
          simp only [decide_eq_true hsame, hdrop, hb, hplace, hb']
          by_cases hend : b = 0 ∧ b' = 0
          · rw [if_pos hend, hb0.1 hend.1, hb0' hend.2]
            refine ⟨_, rfl, ?_⟩
            rintro _ ⟨⟩
            exact ⟨rfl, .cons hlabel (.refl [])⟩
          · rw [if_neg hend]
            by_cases hmore : b ≠ 0
            · rw [if_pos hmore]
              obtain ⟨r, hr, hfound⟩ := ih hrest (show _ < fuel by split_ifs at hfuel <;> omega)
              exact ⟨r, hr, fun off hoff => ⟨(hfound off hoff).1, .cons hlabel (hfound off hoff).2⟩⟩
            · rw [if_neg hmore]
              exact ⟨.next, rfl, nofun⟩
        · simp only [decide_eq_false hsame]
          exact ⟨.next, rfl, nofun⟩
    · exact ⟨.illegal, rfl, nofun⟩
  | @pointer x e c a b ls ha hptr hb h ih =>
    obtain ⟨fuel, rfl⟩ : ∃ f, fuel = f + 1 := ⟨fuel - 1, by omega⟩
    have hptr : a &&& NS_CMPRSFLAGS = NS_CMPRSFLAGS := hptr
    have hn : a ≠ 0 := by
      rintro rfl
      exact cmprsflags_ne_zero hptr.symm
    obtain ⟨r, hr, hfound⟩ := ih hds (show _ < fuel by omega)
    refine ⟨r, ?_, hfound⟩
    rw [dnMatchLoop]
    simp only [ha, if_neg hn, hptr, if_neg cmprsflags_ne_zero, if_true, hb]
    exact hr

/-- At `p` in the message is a name that can be read: what is read of it, up to the
last pointer, is less than what is up to its end. -/
def Named (m : List UInt8) (p : ℕ) (ls : List (List UInt8)) : Prop := ∃ e c, NameAt m p ls e c ∧ c < e

/-- **The search over the labels of an earlier name** comes to an end, and finds only
what is the name that it looks for. -/
theorem dnFindFrom_sound (rest : List UInt8) (hm : m <+: msg) (h : NameAt m sp ls e c) (hc : c < e) (hds : ∀ d ∈ ds, IsLabel d)
    (hfuel : msg.length < fuel + sp) : ∃ r, dnFindFrom msg (wire ds ++ rest) fuel sp = some r ∧
      ∀ off, r = .found off → off < 0x4000 ∧ ∃ ls, Named m off ls ∧ SameName ds ls := by
  have hlen := hm.length_le
  induction h generalizing fuel with
  | @root x hx =>
    have hlt := (List.getElem?_eq_some_iff.1 hx).1
    obtain ⟨fuel, rfl⟩ : ∃ f, fuel = f + 1 := ⟨fuel - 1, by omega⟩
    refine ⟨.next, ?_, nofun⟩
    rw [dnFindFrom, getElem?_of_isPrefix hm hx]
    exact if_pos (.inl rfl)
  | @label x e c label ls hl hpre h ih =>
    have hname := LabelCode.NameAt.label hl hpre h
    have hbounds := hname.bounds
    obtain ⟨fuel, rfl⟩ : ∃ f, fuel = f + 1 := ⟨fuel - 1, by omega⟩
    obtain ⟨n, t, rfl, hn, hflags, hsize⟩ := hl.exists_cons
    rw [dnFindFrom, getElem?_of_isPrefix hm (getElem?_of_prefix_drop hpre)]
    dsimp only
    by_cases hstop : n = 0 ∨ n &&& NS_CMPRSFLAGS ≠ 0 ∨ 0x4000 ≤ x
    · exact ⟨.next, if_pos hstop, nofun⟩
    rw [if_neg hstop]
    have hflags : n &&& NS_CMPRSFLAGS = 0 := not_not.1 fun h => hstop (.inr (.inl h))
    rw [labellen_text hflags] at hsize
    have hsize : n.toNat = t.length := Option.some.inj (Option.some.inj hsize)
    have hroom : (wire ds).length + (if c = 0 then 0 else (n :: t).length + c) <
        ((wire ds ++ rest).length + 1) * (msg.length + 1) := by
      rw [List.length_append]
      have hle : (wire ds).length + rest.length + (msg.length + 1) ≤
          ((wire ds).length + rest.length + 1) * (msg.length + 1) := by nlinarith
      omega
    obtain ⟨r, hr, hfound⟩ := dnMatchLoop_sound x rest (hname.mono hm) hds hroom
    rw [hr]
    cases r with
    | found off =>
      obtain ⟨rfl, hsame⟩ := hfound off rfl
      refine ⟨_, rfl, ?_⟩
      rintro _ ⟨⟩
      exact ⟨not_le.1 fun hle => hstop (.inr (.inr hle)), _, ⟨e, _, hname, hc⟩, hsame⟩
    | next =>
      have hplace : x + (n.toNat + 1) = x + (n :: t).length := by rw [List.length_cons, hsize]
      dsimp only
      rw [hplace]
      exact ih (by split_ifs at hc <;> omega) (by rw [List.length_cons]; omega)
    | illegal => exact ⟨_, rfl, nofun⟩
  | @pointer x e c a b ls ha hptr hb h _ =>
    have hlt := (List.getElem?_eq_some_iff.1 ha).1
    obtain ⟨fuel, rfl⟩ : ∃ f, fuel = f + 1 := ⟨fuel - 1, by omega⟩
    have hptr : a &&& NS_CMPRSFLAGS = NS_CMPRSFLAGS := hptr
    refine ⟨.next, ?_, nofun⟩
    rw [dnFindFrom, getElem?_of_isPrefix hm ha]
    exact if_pos (.inr (.inl fun h0 => cmprsflags_ne_zero (hptr.symm.trans h0)))

/-- The earlier names: at each of them there is a name. -/
def Saved (m : List UInt8) (dnptrs : List ℕ) : Prop := ∀ p ∈ dnptrs, ∃ ls, Named m p ls

/-- **What `mowgli_dns_dn_find` finds** is the name that it looks for, up to the case,
and it comes to an end. -/
theorem dnFind_sound (rest : List UInt8) (hm : m <+: msg) (hsaved : Saved m dnptrs) (hds : ∀ d ∈ ds, IsLabel d) :
    ∃ r, dnFind msg (wire ds ++ rest) dnptrs = some r ∧
      ∀ off, r = some off → dnptrs ≠ [] ∧ off < 0x4000 ∧ ∃ ls, Named m off ls ∧ SameName ds ls := by
  induction dnptrs with
  | nil => exact ⟨none, rfl, nofun⟩
  | cons sp dnptrs ih =>
    obtain ⟨⟨ls, e, c, hname, hc⟩, hsaved⟩ := List.forall_mem_cons.1 hsaved
    obtain ⟨r, hr, hfound⟩ := dnFindFrom_sound rest hm hname hc hds (show _ < msg.length + 1 + sp by omega)
    rw [dnFind, hr]
    cases r with
    | found off => exact ⟨_, rfl, fun off' h => ⟨List.cons_ne_nil _ _, Option.some.inj h ▸ hfound off rfl⟩⟩
    | next =>
      obtain ⟨r, hr, hfound⟩ := ih hsaved
      exact ⟨r, hr, fun off hoff => ⟨List.cons_ne_nil _ _, (hfound off hoff).2⟩⟩
    | illegal => exact ⟨none, rfl, nofun⟩

/-! ## Copying a name to a message -/

section

variable {data saved : List UInt8} {i j : ℕ}

theorem take_of_store_of_le (h : Bytes.store msg i data = some msg') (hj : j ≤ i) : msg'.take j = msg.take j := by
  obtain ⟨hle, -⟩ := Bytes.store_eq_some h
  have htake := congrArg (List.take j) (Bytes.take_of_store h)
  rw [List.take_take, min_eq_left (by omega), List.take_append_of_le_length (by rw [List.length_take]; omega),
    List.take_take, min_eq_left hj] at htake
  exact htake

theorem drop_of_store_of_le (h : Bytes.store msg i data = some msg') (hj : i + data.length ≤ j) :
    msg'.drop j = msg.drop j := by
  have hdrop := congrArg (List.drop (j - (i + data.length))) (Bytes.drop_of_store h)
  rwa [List.drop_drop, List.drop_drop, Nat.add_sub_cancel' hj] at hdrop

theorem prefix_of_store (h : Bytes.store msg i data = some msg') : data <+: (msg'.take (i + data.length)).drop i := by
  obtain ⟨hle, -⟩ := Bytes.store_eq_some h
  have hi : (msg.take i).length = i := by
    rw [List.length_take]
    omega
  rw [Bytes.take_of_store h, List.drop_left' hi]

end

theorem pointerBytes_spec {off : ℕ} (h : off < 0x4000) : ∃ a b, pointerBytes off = [a, b] ∧
    a &&& NS_CMPRSFLAGS = NS_CMPRSFLAGS ∧ pointer a b = off := by
  refine ⟨_, _, rfl, ?_, ?_⟩
  · have hall : ∀ n : Fin 64, (n.val.toUInt8 ||| NS_CMPRSFLAGS) &&& NS_CMPRSFLAGS = NS_CMPRSFLAGS := by decide +kernel
    exact hall ⟨off / 256, by omega⟩
  · have hall : ∀ n : Fin 64, ((n.val.toUInt8 ||| NS_CMPRSFLAGS) &&& 0x3f).toNat = n.val := by decide +kernel
    have hhigh := hall ⟨off / 256, by omega⟩
    have hlow : (off % 256).toUInt8.toNat = off % 256 := by
      rw [UInt8.toNat_ofNat']
      exact Nat.mod_mod _ _
    dsimp only at hhigh
    rw [pointer, hhigh, hlow]
    omega

variable {eob dstp : ℕ} {earlier : Option (List ℕ)} {lastdnptr : Option ℕ} {saved : List ℕ}

/-- What the loop of `mowgli_dns_ns_name_pack` does at the root. -/
theorem packLoop_root : nsNamePackLoop eob earlier lastdnptr (fuel + 1) msg (wire [] ++ rest) dstp saved =
    if eob ≤ dstp + 1 then fail .emsgsize
    else (Bytes.store msg dstp [0]).bind fun msg => done (dstp + 1, msg, saved) := by
  have hlen : labellen (0 :: rest) = some (some 0) := labellen_text rfl
  have hload : Bytes.load (0 :: rest) 0 (0 + 1) = some [0] := rfl
  have hflags : ¬ (0 : UInt8) &&& NS_CMPRSFLAGS = NS_CMPRSFLAGS := by decide
  rw [wire_nil, List.singleton_append, nsNamePackLoop]
  simp only [if_true, ne_eq, not_true_eq_false, false_and, if_false, if_neg hflags, hlen, hload, Nat.add_zero, Nat.zero_add]
  by_cases hroom : eob ≤ dstp + 1
  · rw [if_pos hroom, if_pos hroom]
  · rw [if_neg hroom, if_neg hroom]
    cases Bytes.store msg dstp [0] <;> rfl

/-- What it does at a label: it looks for the rest of the name, and copies the label
if it does not find it. -/
theorem packLoop_label (hl : IsLabel label) :
    nsNamePackLoop eob earlier lastdnptr (fuel + 1) msg (label ++ rest) dstp saved =
      (dnFind msg (label ++ rest) (earlier.getD [])).bind fun found =>
        match found with
        | some off =>
          if eob ≤ dstp + 1 then fail .emsgsize
          else (Bytes.store msg dstp (pointerBytes off)).bind fun msg => done (dstp + 2, msg, saved)
        | none =>
          if eob ≤ dstp + label.length then fail .emsgsize
          else (Bytes.store msg dstp label).bind fun msg =>
            nsNamePackLoop eob earlier lastdnptr fuel msg rest (dstp + label.length)
              (if saved = [] ∧ earlier.any (savesName · lastdnptr dstp) then [dstp] else saved) := by
  obtain ⟨n, t, rfl, hn, hflags, hlen⟩ := hl.exists_cons
  have hptr : ¬ n &&& NS_CMPRSFLAGS = NS_CMPRSFLAGS := fun h => by
    rw [labellen_pointer h] at hlen
    cases hlen
  have hlen' : labellen (n :: (t ++ rest)) = some (some t.length) := labellen_append (t := n :: t) (s := rest) hlen
  have hload : Bytes.load (n :: (t ++ rest)) 0 (t.length + 1) = some (n :: t) := by
    rw [Bytes.load_of_le (by simp), List.drop_zero, List.take_succ_cons, List.take_left]
  have ht : t.length ≠ 0 := by
    intro h0
    obtain rfl := List.length_eq_zero_iff.1 h0
    rcases hflags with hflags | rfl
    · rw [labellen_text hflags] at hlen
      exact hn (UInt8.toNat_inj.1 (Option.some.inj (Option.some.inj hlen)))
    · cases hlen
  have hfind : earlier.elim (some none) (dnFind msg (n :: (t ++ rest))) =
      dnFind msg (n :: (t ++ rest)) (earlier.getD []) := by
    cases earlier <;> rfl
  rw [List.cons_append, nsNamePackLoop]
  simp only [hfind, hn, if_false, ne_eq, not_false_eq_true, true_and, if_neg hptr, hlen', hload, if_neg ht,
    List.length_cons, List.drop_left]
  rcases dnFind msg (n :: (t ++ rest)) (earlier.getD []) with _ | _ | off
  · rfl
  · rw [Option.bind_some, Nat.add_right_comm dstp 1, Nat.add_assoc]
    by_cases hroom : eob ≤ dstp + (t.length + 1)
    · simp only [if_pos hroom]
    · simp only [if_neg hroom]
      cases Bytes.store msg dstp (n :: t) <;> rfl
  · rfl

/-- What comes of a name, from the place `dstp` on, in a message with other names up
to `dst`. -/
structure Packed (dst : ℕ) (earlier : Option (List ℕ)) (ds : List (List UInt8)) (msg : List UInt8) (dstp : ℕ)
    (saved : List ℕ) (msg' : List UInt8) (dstp' : ℕ) (saved' : List ℕ) : Prop where
  length : msg'.length = msg.length
  before : msg'.take dstp = msg.take dstp
  behind : msg'.drop dstp' = msg.drop dstp'
  lt : dstp < dstp'
  size : dstp' ≤ dstp + (wire ds).length
  name : ∃ ls c, NameAt (msg'.take dstp') dstp ls dstp' c ∧ SameName ds ls ∧ (c = 0 ∨ c + dstp < dstp' + dst) ∧
    (earlier.getD [] = [] → ls = ds ∧ c = 0)
  saved : ∀ p ∈ saved', p ∈ saved ∨ ∃ ls, Named (msg'.take dstp') p ls

/-- **The loop copies the name**, or it fails, and then there is not a byte to spare. -/
theorem packLoop_spec (rest : List UInt8) (lastdnptr : Option ℕ) (fuel : ℕ) (msg : List UInt8) (dstp : ℕ) (saved : List ℕ)
    (hds : ∀ d ∈ ds, IsLabel d) (hdst : dst ≤ dstp) (hsaved : Saved (msg.take dst) (earlier.getD []))
    (heob : eob ≤ msg.length) (hfuel : ds.length < fuel) :
    (∃ dstp' msg' saved', nsNamePackLoop eob earlier lastdnptr fuel msg (wire ds ++ rest) dstp saved =
      done (dstp', msg', saved') ∧ dstp' ≤ eob ∧ Packed dst earlier ds msg dstp saved msg' dstp' saved') ∨
    (nsNamePackLoop eob earlier lastdnptr fuel msg (wire ds ++ rest) dstp saved = fail .emsgsize ∧
      eob ≤ dstp + (wire ds).length) := by
  induction ds generalizing fuel msg dstp saved with
  | nil =>
    obtain ⟨fuel, rfl⟩ : ∃ f, fuel = f + 1 := ⟨fuel - 1, by omega⟩
    rw [packLoop_root]
    by_cases hroom : eob ≤ dstp + 1
    · rw [if_pos hroom]
      exact .inr ⟨rfl, hroom⟩
    · rw [if_neg hroom]
      obtain ⟨msg', hstore⟩ := Bytes.exists_store msg dstp [0] (by rw [List.length_singleton]; omega)
      have hname : NameAt (msg'.take (dstp + 1)) dstp [] (dstp + 1) 0 :=
        .root (getElem?_of_prefix_drop (prefix_of_store hstore))
      refine .inl ⟨dstp + 1, msg', saved, by rw [hstore, Option.bind_some], by omega, Bytes.length_of_store hstore,
        take_of_store_of_le hstore le_rfl, Bytes.drop_of_store hstore, Nat.lt_succ_self _, le_rfl,
        ⟨[], 0, hname, .refl _, .inl rfl, fun _ => ⟨rfl, rfl⟩⟩, fun p hp => .inl hp⟩
  | cons d ds ih =>
    obtain ⟨fuel, rfl⟩ : ∃ f, fuel = f + 1 := ⟨fuel - 1, by omega⟩
    obtain ⟨hd, hds'⟩ := List.forall_mem_cons.1 hds
    have hsize : (wire (d :: ds)).length = d.length + (wire ds).length := by rw [wire_cons, List.length_append]
    have hpos := LabelCode.label_pos (C := labelCode) hd
    have hwire : 0 < (wire ds).length := by
      rw [length_wire]
      omega
    obtain ⟨found, hfind, hfound⟩ := dnFind_sound rest (List.take_prefix dst msg) hsaved hds
    have hsrc : wire (d :: ds) ++ rest = d ++ (wire ds ++ rest) := by rw [wire_cons, List.append_assoc]
    rw [hsrc] at hfind ⊢
    rw [packLoop_label hd, hfind, Option.bind_some]
    cases found with
    | some off =>
      obtain ⟨hearlier, hoff, ls, ⟨e, c, hname, hc⟩, hsame⟩ := hfound off rfl
      dsimp only
      by_cases hroom : eob ≤ dstp + 1
      · rw [if_pos hroom]
        exact .inr ⟨rfl, by omega⟩
      · rw [if_neg hroom]
        obtain ⟨a, b, hab, hptr, hplace⟩ := pointerBytes_spec hoff
        obtain ⟨msg', hstore⟩ := Bytes.exists_store msg dstp [a, b] (by simp only [List.length_cons, List.length_nil]; omega)
        have hpre : [a, b] <+: (msg'.take (dstp + 2)).drop dstp := prefix_of_store hstore
        have hbounds := hname.bounds
        rw [List.length_take] at hbounds
        have hearly : msg.take dst <+: msg'.take (dstp + 2) := by
          rw [← take_of_store_of_le hstore hdst]
          exact List.take_prefix_take_left (by omega)
        have hname' : NameAt (msg'.take (dstp + 2)) dstp ls (dstp + 2) (2 + c) :=
          .pointer (getElem?_of_prefix_drop hpre) hptr
            (getElem?_of_prefix_drop (append_prefix_drop (l := [a]) (t := [b]).1 hpre).2) (hplace ▸ hname.mono hearly)
        refine .inl ⟨dstp + 2, msg', saved, by rw [hab, hstore, Option.bind_some], by omega,
          Bytes.length_of_store hstore, take_of_store_of_le hstore le_rfl, Bytes.drop_of_store hstore, by omega,
          by omega, ⟨ls, 2 + c, hname', hsame, .inr (by omega), fun h => absurd h hearlier⟩, fun p hp => .inl hp⟩
    | none =>
      dsimp only
      by_cases hroom : eob ≤ dstp + d.length
      · rw [if_pos hroom]
        exact .inr ⟨rfl, by omega⟩
      · rw [if_neg hroom]
        obtain ⟨msg₁, hstore⟩ := Bytes.exists_store msg dstp d (by omega)
        have hlen := Bytes.length_of_store hstore
        have hsaved₁ : Saved (msg₁.take dst) (earlier.getD []) := by rwa [take_of_store_of_le hstore hdst]
        rw [hstore, Option.bind_some]
        generalize hs : (if saved = [] ∧ earlier.any (savesName · lastdnptr dstp) then [dstp] else saved) = saved₁
        rcases ih fuel msg₁ (dstp + d.length) saved₁ hds' (by omega) hsaved₁ (by omega) (by rw [List.length_cons] at hfuel; omega) with ⟨dstp', msg', saved', hloop, hle, h⟩ | ⟨hloop, hle⟩
        · obtain ⟨ls, c, hname, hsame, hc, hexact⟩ := h.name
          have hlt := h.lt
          have hbefore : msg'.take dstp = msg.take dstp := by
            have := congrArg (List.take dstp) h.before
            rwa [List.take_take, List.take_take, min_eq_left (by omega), take_of_store_of_le hstore le_rfl] at this
          have hpre : d <+: (msg'.take dstp').drop dstp := by
            refine prefix_drop_of_isPrefix ?_ (prefix_of_store hstore)
            rw [← h.before]
            exact List.take_prefix_take_left hlt.le
          have hname' := LabelCode.NameAt.label hd hpre hname
          have hc' : (if c = 0 then 0 else d.length + c) = 0 ∨ (if c = 0 then 0 else d.length + c) + dstp < dstp' + dst := by
            split_ifs with h0
            · exact .inl rfl
            · exact .inr (by omega)
          refine .inl ⟨dstp', msg', saved', hloop, hle, h.length.trans hlen, hbefore, ?_, by omega,
            by have := h.size; omega,
            ⟨_, _, hname', .cons rfl hsame, hc', fun h0 => ?_⟩, fun p hp => ?_⟩
          · rw [h.behind]
            exact drop_of_store_of_le hstore hlt.le
          · obtain ⟨rfl, rfl⟩ := hexact h0
            exact ⟨rfl, rfl⟩
          · rcases h.saved p hp with hp | hp
            · rw [← hs] at hp
              split_ifs at hp with hsave
              · obtain rfl := List.mem_singleton.1 hp
                exact .inr ⟨_, dstp', _, hname', by omega⟩
              · exact .inl hp
            · exact .inr hp
        · exact .inr ⟨hloop, by omega⟩

/-- A name is legal if it has not too many bytes. -/
theorem packCheck_eq (hds : ∀ d ∈ ds, IsLabel d) (hfuel : ds.length < fuel) (l : ℕ) :
    nsNamePackCheck fuel (wire ds ++ rest) l =
      if l + (wire ds).length ≤ NS_MAXCDNAME then done () else fail .emsgsize := by
  induction ds generalizing fuel l with
  | nil =>
    obtain ⟨fuel, rfl⟩ : ∃ f, fuel = f + 1 := ⟨fuel - 1, by omega⟩
    have hlen : labellen (0 :: rest) = some (some 0) := labellen_text rfl
    have hflags : ¬ (0 : UInt8) &&& NS_CMPRSFLAGS = NS_CMPRSFLAGS := by decide
    rw [wire_nil, List.singleton_append, List.length_singleton, nsNamePackCheck, if_neg hflags]
    simp only [hlen, Nat.zero_add, if_true]
    split_ifs <;> first | rfl | omega
  | cons d ds ih =>
    obtain ⟨fuel, rfl⟩ : ∃ f, fuel = f + 1 := ⟨fuel - 1, by omega⟩
    obtain ⟨hd, hds'⟩ := List.forall_mem_cons.1 hds
    rw [wire_cons, List.append_assoc, List.length_append]
    obtain ⟨n, t, rfl, hn, -, hlen⟩ := hd.exists_cons
    have hptr : ¬ n &&& NS_CMPRSFLAGS = NS_CMPRSFLAGS := fun h => by
      rw [labellen_pointer h] at hlen
      cases hlen
    have hlen' := labellen_append (s := wire ds ++ rest) hlen
    rw [List.cons_append] at hlen' ⊢
    rw [nsNamePackCheck, if_neg hptr]
    simp only [hlen', if_neg hn, List.drop_left, List.length_cons]
    rw [List.length_cons] at hfuel
    rw [ih hds' (by omega), ← Nat.add_assoc l]
    split_ifs <;> first | rfl | omega

theorem length_le_length_wire (hds : ∀ d ∈ ds, IsLabel d) : ds.length < (wire ds).length := by
  induction ds with
  | nil => exact Nat.one_pos
  | cons d ds ih =>
    obtain ⟨hd, hds⟩ := List.forall_mem_cons.1 hds
    have hpos := LabelCode.label_pos (C := labelCode) hd
    have := ih hds
    rw [wire_cons, List.length_append, List.length_cons]
    omega

/-- What `mowgli_dns_ns_name_pack` makes of a message that has names up to `dst`: the
name `ds`, up to the case, is there in `n` bytes, and what it saves begins a
name. -/
structure PackedAt (earlier : Option (List ℕ)) (ds : List (List UInt8)) (msg : List UInt8) (dst n : ℕ)
    (msg' : List UInt8) (later : Option (List ℕ)) : Prop where
  length : msg'.length = msg.length
  before : msg'.take dst = msg.take dst
  behind : msg'.drop (dst + n) = msg.drop (dst + n)
  size : 0 < n ∧ n ≤ (wire ds).length
  name : ∃ ls c, NameAt (msg'.take (dst + n)) dst ls (dst + n) c ∧ c < dst + n ∧ SameName ds ls ∧
    (earlier.getD [] = [] → ls = ds ∧ c = 0)
  saved : Saved (msg'.take (dst + n)) (later.getD [])

/-- **A name is packed**, or it fails, and then it has more than 255 bytes, or there is
not a byte to spare. -/
theorem nsNamePack_spec (rest : List UInt8) (lastdnptr : Option ℕ) {dstsiz : ℕ} (hds : ∀ d ∈ ds, IsLabel d) (hsaved : Saved (msg.take dst) (earlier.getD []))
    (hroom : dst + dstsiz ≤ msg.length) :
    (∃ n msg' later, nsNamePack (wire ds ++ rest) msg dst dstsiz earlier lastdnptr = done (n, msg', later) ∧
      n ≤ dstsiz ∧ PackedAt earlier ds msg dst n msg' later) ∨
    (nsNamePack (wire ds ++ rest) msg dst dstsiz earlier lastdnptr = fail .emsgsize ∧
      (NS_MAXCDNAME < (wire ds).length ∨ dstsiz ≤ (wire ds).length)) := by
  have hfuel : ds.length < (wire ds ++ rest).length + 1 := by
    have := length_le_length_wire hds
    rw [List.length_append]
    omega
  rw [nsNamePack, packCheck_eq hds hfuel, Nat.zero_add]
  by_cases hmax : (wire ds).length ≤ NS_MAXCDNAME
  · rw [if_pos hmax]
    rcases packLoop_spec rest lastdnptr ((wire ds ++ rest).length + 1) msg dst [] hds le_rfl hsaved hroom hfuel with
      ⟨dstp, msg', saved, hloop, hle, h⟩ | ⟨hloop, hle⟩
    · have hlt := h.lt
      have hsize := h.size
      obtain ⟨ls, c, hname, hsame, hc, hexact⟩ := h.name
      have hdstp : dst + (dstp - dst) = dstp := Nat.add_sub_cancel' hlt.le
      refine .inl ⟨dstp - dst, msg', earlier.map (· ++ saved), ?_, by omega, h.length, h.before, ?_, by omega, ?_, ?_⟩
      · simp only [done, hloop]
      · rw [hdstp, h.behind]
      · rw [hdstp]
        exact ⟨ls, c, hname, by omega, hsame, hexact⟩
      · rw [hdstp]
        intro p hp
        cases earlier with
        | none => exact absurd hp List.not_mem_nil
        | some dnptrs =>
          rcases List.mem_append.1 hp with hp | hp
          · obtain ⟨ls, e, c, hname, hc⟩ := hsaved p hp
            have hpre : msg.take dst <+: msg'.take dstp := h.before ▸ List.take_prefix_take_left hlt.le
            exact ⟨ls, e, c, hname.mono hpre, hc⟩
          · exact (h.saved p hp).resolve_left List.not_mem_nil
    · refine .inr ⟨?_, .inr (by omega)⟩
      simp only [done, fail, hloop]
  · rw [if_neg hmax]
    exact .inr ⟨rfl, .inl (not_le.1 hmax)⟩

/-! ## Any row of names -/

/-- The text of labels of text is the same up to the case. -/
theorem SameName.lower (h : SameName ls ds) (hls : ∀ l ∈ ls, IsText l) (hds : ∀ d ∈ ds, IsText d) :
    (nameText ls).map toLower = (nameText ds).map toLower := by
  have hchar : ∀ c, (charText c).map toLower = (charText (mklower c)).map toLower := fun c =>
    forall_uint8 (P := fun c => (charText c).map toLower = (charText (mklower c)).map toLower) (by decide +kernel) c
  have htext : ∀ t : List UInt8, (t.flatMap charText).map toLower = ((t.map mklower).flatMap charText).map toLower := by
    intro t
    induction t with
    | nil => rfl
    | cons c t ih =>
      rw [List.map_cons, List.flatMap_cons, List.flatMap_cons, List.map_append, List.map_append, ih, hchar]
  have hlabel : ∀ l d, IsText l → IsText d → l.map mklower = d.map mklower →
      (labelText l).map toLower = (labelText d).map toLower := by
    intro l d hl hd hsame
    obtain ⟨t, rfl, -, hlt⟩ := hl.exists_cons
    obtain ⟨u, rfl, -, hlt'⟩ := hd.exists_cons
    rw [List.map_cons, List.map_cons] at hsame
    rw [labelText_text hlt, labelText_text hlt', htext, (List.cons.inj hsame).2, ← htext]
  have hdotted : ∀ ls ds, SameName ls ds → (∀ l ∈ ls, IsText l) → (∀ d ∈ ds, IsText d) →
      (dotted ls).map toLower = (dotted ds).map toLower := by
    intro ls
    induction ls with
    | nil =>
      intro ds h _ _
      obtain rfl : ds = [] := List.map_eq_nil_iff.1 h.symm
      rfl
    | cons l ls ih =>
      intro ds h hls hds
      cases ds with
      | nil => exact absurd h (List.cons_ne_nil _ _)
      | cons d ds =>
        obtain ⟨hl, hls⟩ := List.forall_mem_cons.1 hls
        obtain ⟨hd, hds⟩ := List.forall_mem_cons.1 hds
        obtain ⟨hsame, hrest⟩ := List.cons.inj h
        rw [dotted_cons, dotted_cons, List.map_cons, List.map_cons, List.map_append, List.map_append,
          hlabel l d hl hd hsame, ih ds hrest hls hds]
  cases ls with
  | nil =>
    obtain rfl : ds = [] := List.map_eq_nil_iff.1 h.symm
    rfl
  | cons l ls =>
    cases ds with
    | nil => exact absurd h (List.cons_ne_nil _ _)
    | cons d ds => exact (List.cons.inj (hdotted _ _ h hls hds)).2

theorem SameName.expanded (h : SameName ds ls) (hds : ∀ d ∈ ds, IsText d) (hls : ∀ l ∈ ls, IsText l) :
    (expanded ls).lower = (expanded ds).lower := by
  refine CString.ext ?_
  by_cases hne : ds = []
  · subst hne
    obtain rfl : ls = [] := List.map_eq_nil_iff.1 h.symm
    rfl
  · have hne' : ls ≠ [] := by
      rintro rfl
      exact hne (List.map_eq_nil_iff.1 h)
    dsimp only [CString.lower]
    rw [expanded_bytes hls hne', expanded_bytes hds hne]
    exact (h.lower hds hls).symm

/-- What is the same as labels of text are labels of text. -/
theorem SameName.text (h : SameName ds ls) (hds : ∀ d ∈ ds, IsText d) (hls : ∀ l ∈ ls, IsLabel l) :
    ∀ l ∈ ls, IsText l := by
  induction ls generalizing ds with
  | nil => exact fun l hl => absurd hl List.not_mem_nil
  | cons l ls ih =>
    cases ds with
    | nil => exact absurd h.symm (List.cons_ne_nil _ _)
    | cons d ds =>
      obtain ⟨hd, hds⟩ := List.forall_mem_cons.1 hds
      obtain ⟨hl, hls⟩ := List.forall_mem_cons.1 hls
      obtain ⟨hsame, hrest⟩ := List.cons.inj h
      refine List.forall_mem_cons.2 ⟨⟨hl, ?_⟩, ih hrest hds hls⟩
      rintro n t rfl
      obtain ⟨u, rfl, -, hlt⟩ := hd.exists_cons
      have hn : mklower u.length.toUInt8 = mklower n := (List.cons.inj hsame).1
      have hsmall : u.length.toUInt8 < 64 := by
        rw [UInt8.lt_iff_toNat_lt, UInt8.toNat_ofNat', Nat.mod_eq_of_lt (by omega)]
        exact hlt
      have hkeep : mklower u.length.toUInt8 < 64 :=
        forall_uint8 (P := fun b => b < 64 → mklower b < 64) (by decide +kernel) _ hsmall
      rw [hn] at hkeep
      exact flags_eq_zero_iff.2
        (forall_uint8 (P := fun b => mklower b < 64 → b < 64) (by decide +kernel) _ hkeep)

/-- A message that was written up to a place: names that were put there by
`mowgli_dns_dn_comp`, with the earlier names that it saved, and other bytes. -/
inductive Written (lastdnptr : Option ℕ) : List UInt8 → ℕ → List ℕ → List (ℕ × CString) → Prop
  | start {msg : List UInt8} {dst : ℕ} : dst ≤ msg.length → Written lastdnptr msg dst [] []
  | name {msg msg' : List UInt8} {dst dstsiz n : ℕ} {dnptrs later : List ℕ} {names : List (ℕ × CString)}
      {src : CString} : Written lastdnptr msg dst dnptrs names → dst + dstsiz ≤ msg.length →
      dnComp src msg dst dstsiz (some dnptrs) lastdnptr = done (n, msg', some later) →
      Written lastdnptr msg' (dst + n) later (names ++ [(dst, src)])
  | data {msg msg' data : List UInt8} {dst : ℕ} {dnptrs : List ℕ} {names : List (ℕ × CString)} :
      Written lastdnptr msg dst dnptrs names → Bytes.store msg dst data = some msg' →
      Written lastdnptr msg' (dst + data.length) dnptrs names

/-- At `x` in the message is the name that a text is, up to the case. -/
def ReadsText (m : List UInt8) (x : ℕ) (k : CString) : Prop :=
  ∃ q ds ls e c, nsNamePton k NS_MAXCDNAME = done (q, wire ds) ∧ IsName ds ∧ SameName ds ls ∧ NameAt m x ls e c ∧ c < e

theorem ReadsText.mono {x : ℕ} {k : CString} (h : ReadsText m x k) (hm : m <+: msg) : ReadsText msg x k := by
  obtain ⟨q, ds, ls, e, c, hpton, hds, hsame, hname, hc⟩ := h
  exact ⟨q, ds, ls, e, c, hpton, hds, hsame, hname.mono hm, hc⟩

theorem Saved.mono (h : Saved m dnptrs) (hm : m <+: msg) : Saved msg dnptrs := fun p hp => by
  obtain ⟨ls, e, c, hname, hc⟩ := h p hp
  exact ⟨ls, e, c, hname.mono hm, hc⟩

/-- What `mowgli_dns_dn_comp` packs is what the text is. -/
theorem dnComp_eq_done {src : CString} {dstsiz n : ℕ} {later : Option (List ℕ)}
    (hsaved : Saved (msg.take dst) (earlier.getD [])) (hroom : dst + dstsiz ≤ msg.length)
    (h : dnComp src msg dst dstsiz earlier lastdnptr = done (n, msg', later)) :
    ∃ q ds, nsNamePton src NS_MAXCDNAME = done (q, wire ds) ∧ IsName ds ∧ n ≤ dstsiz ∧
      PackedAt earlier ds msg dst n msg' later := by
  unfold dnComp at h
  rcases hpton : nsNamePton src NS_MAXCDNAME with _ | e | ⟨q, tmp⟩
  · rw [hpton] at h
    cases h
  · rw [hpton] at h
    cases h
  · obtain ⟨ds, hds, rfl⟩ := nsNamePton_sound (by decide) hpton
    rw [hpton] at h
    dsimp only at h
    rcases nsNamePack_spec [] lastdnptr hds.isLabel hsaved hroom with
      ⟨n', msg₁, later', heq, hn, hpacked⟩ | ⟨heq, -⟩
    · rw [List.append_nil, h] at heq
      obtain ⟨rfl, hrest⟩ := Prod.mk.inj (Except.ok.inj (Option.some.inj heq))
      obtain ⟨rfl, rfl⟩ := Prod.mk.inj hrest
      exact ⟨q, ds, rfl, hds, hn, hpacked⟩
    · rw [List.append_nil, h] at heq
      cases heq

namespace Written

variable {names : List (ℕ × CString)}

/-- What holds of a message that is written: what is saved begins a name, and each
name is where it was put. -/
theorem invariant (h : Written lastdnptr msg dst dnptrs names) : dst ≤ msg.length ∧ Saved (msg.take dst) dnptrs ∧
    ∀ x k, (x, k) ∈ names → ReadsText (msg.take dst) x k := by
  induction h with
  | start hle => exact ⟨hle, fun p hp => absurd hp List.not_mem_nil, fun x k hx => absurd hx List.not_mem_nil⟩
  | @name msg msg' dst dstsiz n dnptrs later names src h hroom hcomp ih =>
    obtain ⟨hle, hsaved, hnames⟩ := ih
    obtain ⟨q, ds, hpton, hds, -, hpacked⟩ := dnComp_eq_done (hsaved : Saved _ ((some dnptrs).getD [])) hroom hcomp
    obtain ⟨ls, c, hname, hc, hsame, -⟩ := hpacked.name
    have hpre : msg.take dst <+: msg'.take (dst + n) := hpacked.before ▸ List.take_prefix_take_left (Nat.le_add_right ..)
    have hend := hname.bounds.2
    rw [List.length_take] at hend
    refine ⟨by omega, hpacked.saved, fun x k hx => ?_⟩
    rcases List.mem_append.1 hx with hx | hx
    · exact (hnames x k hx).mono hpre
    · obtain ⟨rfl, rfl⟩ := Prod.mk.inj (List.mem_singleton.1 hx)
      exact ⟨q, ds, ls, _, c, hpton, hds, hsame, hname, hc⟩
  | @data msg msg' data dst dnptrs names h hstore ih =>
    obtain ⟨hle, hsaved, hnames⟩ := ih
    have hpre : msg.take dst <+: msg'.take (dst + data.length) := by
      rw [← take_of_store_of_le hstore le_rfl]
      exact List.take_prefix_take_left (Nat.le_add_right ..)
    have hend := (Bytes.store_eq_some hstore).1
    rw [← Bytes.length_of_store hstore] at hend
    exact ⟨hend, hsaved.mono hpre, fun x k hx => (hnames x k hx).mono hpre⟩

/-- **However many names are put in a message, each is read back** where it was put: it
has the labels of its text, up to the case, and they are printed as that is. -/
theorem dnExpand_eq (h : Written lastdnptr msg dst dnptrs names) {x eom : ℕ} {k : CString} (hx : (x, k) ∈ names)
    (heom : dst ≤ eom) (hlen : eom ≤ msg.length) : ∃ q ds, nsNamePton k NS_MAXCDNAME = done (q, wire ds) ∧ IsName ds ∧
      ∀ dstsiz, (nameText ds).length < dstsiz → ∃ n name, dnExpand msg eom x dstsiz = done (n, name) ∧
        dnSkipname msg eom x = done n ∧ name.lower = (expanded ds).lower := by
  obtain ⟨-, -, hnames⟩ := h.invariant
  obtain ⟨q, ds, ls, e, c, hpton, hds, hsame, hname, hc⟩ := hnames x k hx
  have hls := hsame.text hds.text hname.isLabel
  have hpre : msg.take dst <+: msg.take eom := List.take_prefix_take_left heom
  have hbounds := (hname.mono hpre).bounds
  rw [List.length_take] at hbounds
  have hreads : Reads msg eom x NS_MAXCDNAME (e - x) ls := by
    refine ⟨c, ?_, by omega, hsame.length_wire ▸ hds.size⟩
    rw [Nat.add_sub_cancel' hbounds.1.le]
    exact hname.mono hpre
  have hlower := hsame.lower hds.text hls
  have htext : (nameText ls).length = (nameText ds).length := by
    have := congrArg List.length hlower
    rwa [List.length_map, List.length_map, eq_comm] at this
  refine ⟨q, ds, hpton, hds, fun dstsiz hroom => ⟨e - x, expanded ls, ?_, dnSkipname_of_reads hreads, ?_⟩⟩
  · rw [dnExpand_of_text hlen hreads hls, if_pos (by omega)]
  · exact hsame.expanded hds.text hls

/-- "a" and "B.A" in ten bytes: the second one has a pointer to the first. -/
def messageBA : List UInt8 := [1, 97, 0, 1, 66, 0xc0, 0, 0, 0, 0]

theorem written_messageBA : Written (some 20) messageBA 7 [0, 3] [(0, ⟨[97], by decide⟩), (3, ⟨[66, 46, 65], by decide⟩)] :=
  have hfirst : Written (some 20) [1, 97, 0, 0, 0, 0, 0, 0, 0, 0] (0 + 3) [0] ([] ++ [(0, ⟨[97], by decide⟩)]) :=
    .name (.start (Nat.zero_le (List.replicate 10 0).length)) (by decide : 0 + 10 ≤ 10) (by decide +kernel)
  .name hfirst (by decide : 3 + 7 ≤ 10) (by decide +kernel : dnComp ⟨[66, 46, 65], _⟩ _ 3 7 _ _ = done (4, messageBA, _))

theorem dnExpand_eq_pointer : ∃ q ds, nsNamePton ⟨[66, 46, 65], by decide⟩ NS_MAXCDNAME = done (q, wire ds) ∧ IsName ds ∧
    ∀ dstsiz, (nameText ds).length < dstsiz → ∃ n name, dnExpand messageBA 7 3 dstsiz = done (n, name) ∧
      dnSkipname messageBA 7 3 = done n ∧ name.lower = (expanded ds).lower :=
  written_messageBA.dnExpand_eq (by simp) le_rfl (by decide)

end Written

end DnsName

end Mowgli
