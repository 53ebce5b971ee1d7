import Mathlib.Data.List.Induction
import BackupAtlas.Names
import BackupAtlas.Proofs.RuleSets

namespace BackupAtlas

/-- That a name was asked for behind the cache, when, and what it was then. -/
structure Inquiry where
  principal : Principal
  time : Nat
  answer : String
  deriving DecidableEq, Repr

/-- Asks for a name and takes the inquiry down, the latest first. -/
def noting (naming : Naming) (now : Nat) (principal : Principal) : StateM (List Inquiry) String := do
  modify (⟨principal, now, naming principal⟩ :: ·)
  return naming principal

/-- What is asked of a cache. The names behind it may be others at every call. -/
inductive NameCall where
  | name (naming : Naming) (principal : Principal) (now : Nat)
  | clear

/-- Whether a call bears on a user or group. -/
def NameCall.concerns (principal : Principal) : NameCall → Bool
  | name _ other _ => other = principal
  | clear => true

namespace NameCache

variable {cache : NameCache} {principal other : Principal} {now : Nat}

theorem get?_insert_self (cache : NameCache) (principal : Principal) (entry : CachedName) :
    (cache.insert principal entry).get? principal = some entry := List.lookup_cons_self

theorem get?_insert_ne (different : other ≠ principal) (entry : CachedName) :
    (cache.insert principal entry).get? other = cache.get? other := by
  rw [get?, insert, List.lookup_cons, beq_eq_false_iff_ne.mpr different]
  exact (lookup_filter (· ≠ principal) _).trans (if_pos (decide_eq_true different))

/-- An entry is good until its lifetime is over. -/
theorem isGood_iff {entry : CachedName} : cache.isGood now entry ↔ now ≤ entry.asked + cache.lifetime := by
  rw [isGood, decide_eq_true_eq]
  omega

end NameCache

/-- A cache with the inquiries that were made since it was cleared, the latest first. -/
structure NotedCache where
  cache : NameCache
  inquiries : List Inquiry := []

namespace NotedCache

variable {noted others : NotedCache} {naming : Naming} {principal other : Principal} {now : Nat}

def ask (noted : NotedCache) (naming : Naming) (principal : Principal) (now : Nat) : String × NotedCache :=
  let ((answer, cache), inquiries) := (noted.cache.nameFrom (noting naming now) principal now).run noted.inquiries
  (answer, { cache, inquiries })

def step (noted : NotedCache) : NameCall → NotedCache
  | .name naming principal now => (noted.ask naming principal now).2
  | .clear => { cache := noted.cache.clear }

/-- A cache after calls, which is empty at first. -/
def run (lifetime : Nat) (calls : List NameCall) : NotedCache := calls.foldl step { cache := { lifetime } }

theorem run_concat (lifetime : Nat) (calls : List NameCall) (call : NameCall) :
    run lifetime (calls ++ [call]) = (run lifetime calls).step call := by
  rw [run, List.foldl_append]
  rfl

/-- The last inquiry about a user or group since the cache was cleared. -/
def last? (noted : NotedCache) (principal : Principal) : Option Inquiry :=
  noted.inquiries.find? (·.principal = principal)

/-- What comes of a question that the cache cannot answer. -/
def renewed (noted : NotedCache) (naming : Naming) (principal : Principal) (now : Nat) : NotedCache where
  cache := noted.cache.insert principal { name := naming principal, asked := now }
  inquiries := ⟨principal, now, naming principal⟩ :: noted.inquiries

/-- To ask is to look for a good entry, and to inquire if there is none. -/
theorem ask_eq (noted : NotedCache) (naming : Naming) (principal : Principal) (now : Nat) :
    noted.ask naming principal now =
      match noted.cache.good? principal now with
      | some name => (name, noted)
      | none => (naming principal, noted.renewed naming principal now) := by
  rw [ask, NameCache.nameFrom]
  cases noted.cache.good? principal now <;> rfl

/-- Taking inquiries down changes neither answers nor the cache. -/
theorem nameAt_eq (noted : NotedCache) (naming : Naming) (principal : Principal) (now : Nat) :
    noted.cache.nameAt naming principal now =
      ((noted.ask naming principal now).1, (noted.ask naming principal now).2.cache) := by
  rw [ask_eq, NameCache.nameAt, NameCache.nameFrom]
  cases noted.cache.good? principal now <;> rfl

/-- Every name in the cache is the answer to the last inquiry about it. -/
def Faithful (noted : NotedCache) : Prop :=
  ∀ principal, noted.cache.get? principal = (noted.last? principal).map fun inquiry => ⟨inquiry.answer, inquiry.time⟩

theorem last?_renewed_self (noted : NotedCache) (naming : Naming) (principal : Principal) (now : Nat) :
    (noted.renewed naming principal now).last? principal = some ⟨principal, now, naming principal⟩ :=
  List.find?_cons_of_pos (decide_eq_true rfl)

theorem last?_renewed_ne (different : other ≠ principal) :
    (noted.renewed naming principal now).last? other = noted.last? other :=
  List.find?_cons_of_neg (by simpa using different.symm)

theorem Faithful.renewed (faithful : noted.Faithful) (naming : Naming) (principal : Principal) (now : Nat) :
    (noted.renewed naming principal now).Faithful := by
  intro other
  by_cases same : other = principal
  · subst same
    rw [last?_renewed_self]
    exact NameCache.get?_insert_self ..
  · rw [last?_renewed_ne same]
    exact (NameCache.get?_insert_ne same _).trans (faithful other)

/-- No call makes a cache unfaithful. -/
theorem Faithful.step (faithful : noted.Faithful) (call : NameCall) : (noted.step call).Faithful := by
  cases call with
  | clear => exact fun _ => rfl
  | name naming principal now =>
    rw [NotedCache.step, ask_eq]
    split
    · exact faithful
    · exact faithful.renewed naming principal now

/-- A cache is always faithful, whatever it is asked and however the clock goes. -/
theorem run_faithful (lifetime : Nat) (calls : List NameCall) : (run lifetime calls).Faithful := by
  induction calls using List.reverseRecOn with
  | nil => exact fun _ => rfl
  | append_singleton calls call ih =>
    rw [run_concat]
    exact ih.step call

theorem step_lifetime (noted : NotedCache) (call : NameCall) :
    (noted.step call).cache.lifetime = noted.cache.lifetime := by
  cases call with
  | clear => rfl
  | name naming principal now =>
    rw [step, ask_eq]
    split <;> rfl

theorem run_lifetime (lifetime : Nat) (calls : List NameCall) : (run lifetime calls).cache.lifetime = lifetime := by
  induction calls using List.reverseRecOn with
  | nil => rfl
  | append_singleton calls call ih => rw [run_concat, step_lifetime, ih]

/-- What a faithful cache has ready is the last answer about the principal, if it is not too old. -/
theorem Faithful.good?_eq (faithful : noted.Faithful) (principal : Principal) (now : Nat) :
    noted.cache.good? principal now =
      ((noted.last? principal).filter fun inquiry => now ≤ inquiry.time + noted.cache.lifetime).map (·.answer) := by
  rw [NameCache.good?, faithful principal]
  cases noted.last? principal with
  | none => rfl
  | some inquiry =>
    have good : noted.cache.isGood now ⟨inquiry.answer, inquiry.time⟩ =
        decide (now ≤ inquiry.time + noted.cache.lifetime) := Bool.eq_iff_iff.mpr (by simp [NameCache.isGood_iff])
    rw [Option.map_some, Option.filter_some, Option.filter_some, good]
    split <;> rfl

/-- A question is answered from the last inquiry if that is recent enough, and passed on otherwise. -/
theorem Faithful.ask_cases (faithful : noted.Faithful) (naming : Naming) (principal : Principal) (now : Nat) :
    (∃ inquiry ∈ noted.last? principal, now ≤ inquiry.time + noted.cache.lifetime ∧
      noted.ask naming principal now = (inquiry.answer, noted)) ∨
    (∀ inquiry ∈ noted.last? principal, inquiry.time + noted.cache.lifetime < now) ∧
      noted.ask naming principal now = (naming principal, noted.renewed naming principal now) := by
  rw [ask_eq, faithful.good?_eq]
  cases noted.last? principal with
  | none => exact .inr ⟨nofun, rfl⟩
  | some inquiry =>
    rw [Option.filter_some]
    by_cases good : now ≤ inquiry.time + noted.cache.lifetime
    · rw [if_pos (decide_eq_true good)]
      exact .inl ⟨inquiry, rfl, good, rfl⟩
    · rw [if_neg (by simpa using good)]
      refine .inr ⟨fun found member => ?_, rfl⟩
      obtain rfl := Option.some.inj member
      omega

/-- An inquiry is made by a call about the same user or group, at the same time, after which nothing is cleared. -/
def Origin (lifetime : Nat) (calls : List NameCall) (inquiry : Inquiry) : Prop :=
  ∃ earlier naming later, calls = earlier ++ .name naming inquiry.principal inquiry.time :: later ∧ .clear ∉ later ∧
    inquiry.answer = naming inquiry.principal ∧
    ((run lifetime earlier).ask naming inquiry.principal inquiry.time).2.inquiries =
      inquiry :: (run lifetime earlier).inquiries

theorem Origin.concat {lifetime : Nat} {calls : List NameCall} {inquiry : Inquiry}
    (origin : Origin lifetime calls inquiry) (naming : Naming) (principal : Principal) (now : Nat) :
    Origin lifetime (calls ++ [.name naming principal now]) inquiry := by
  obtain ⟨earlier, asked, later, rfl, uncleared, made⟩ := origin
  refine ⟨earlier, asked, later ++ [.name naming principal now], by simp, ?_, made⟩
  simpa using uncleared

/-- Every inquiry that is noted was made in some call that asked for a name. -/
theorem run_origin {lifetime : Nat} {calls : List NameCall} {inquiry : Inquiry}
    (member : inquiry ∈ (run lifetime calls).inquiries) : Origin lifetime calls inquiry := by
  induction calls using List.reverseRecOn with
  | nil => cases member
  | append_singleton calls call ih =>
    rw [run_concat] at member
    cases call with
    | clear => cases member
    | name naming principal now =>
      have asked := (run_faithful lifetime calls).ask_cases naming principal now
      rw [step] at member
      rcases asked with ⟨_, _, _, ran⟩ | ⟨_, ran⟩
      · rw [ran] at member
        exact (ih member).concat naming principal now
      · rw [ran] at member
        rcases List.mem_cons.mp member with rfl | member
        · exact ⟨calls, naming, [], rfl, nofun, rfl, by rw [ran]; rfl⟩
        · exact (ih member).concat naming principal now

/-- A question is answered by an inquiry that is recent enough, and only the last of them counts. -/
theorem Faithful.ask_answers (faithful : noted.Faithful) (naming : Naming) (principal : Principal) (now : Nat) :
    let (answer, after) := noted.ask naming principal now
    (∃ inquiry ∈ after.inquiries, inquiry.principal = principal ∧ inquiry.answer = answer ∧
        now ≤ inquiry.time + noted.cache.lifetime) ∧
      (after.inquiries = ⟨principal, now, naming principal⟩ :: noted.inquiries ↔
        ∀ inquiry ∈ noted.last? principal, inquiry.time + noted.cache.lifetime < now) ∧
      (after.inquiries = noted.inquiries ↔
        ∃ inquiry ∈ noted.last? principal, now ≤ inquiry.time + noted.cache.lifetime) := by
  rcases faithful.ask_cases naming principal now with ⟨inquiry, last, good, ran⟩ | ⟨old, ran⟩
  · rw [ran]
    refine ⟨⟨inquiry, List.mem_of_find?_eq_some last, ?_, rfl, good⟩, ?_, fun _ => ⟨inquiry, last, good⟩, fun _ => rfl⟩
    · simpa using List.find?_some last
    · refine iff_of_false (fun same => List.cons_ne_self _ _ same.symm) fun old => ?_
      have := old inquiry last
      omega
  · rw [ran]
    refine ⟨⟨_, List.mem_cons_self, rfl, rfl, Nat.le_add_right _ _⟩, iff_of_true rfl old,
      iff_of_false (List.cons_ne_self _ _) ?_⟩
    rintro ⟨inquiry, last, good⟩
    have := old inquiry last
    omega

/-- The last inquiry alone decides what a question is answered and whether it is passed on. -/
theorem Faithful.ask_alike (faithful : noted.Faithful) (also : others.Faithful)
    (lifetime : others.cache.lifetime = noted.cache.lifetime) (last : others.last? principal = noted.last? principal)
    (naming : Naming) (now : Nat) :
    (others.ask naming principal now).1 = (noted.ask naming principal now).1 ∧
      ∃ made : List Inquiry, (∀ inquiry ∈ made, inquiry.principal = principal) ∧
        (noted.ask naming principal now).2.inquiries = made ++ noted.inquiries ∧
        (others.ask naming principal now).2.inquiries = made ++ others.inquiries := by
  have good : others.cache.good? principal now = noted.cache.good? principal now := by
    rw [faithful.good?_eq, also.good?_eq, lifetime, last]
  rw [ask_eq, ask_eq, good]
  cases noted.cache.good? principal now with
  | some name => exact ⟨rfl, [], nofun, rfl, rfl⟩
  | none => exact ⟨rfl, [⟨principal, now, naming principal⟩], by simp, rfl, rfl⟩

/-- What was inquired about others does not matter. -/
theorem last?_of_filter (only : others.inquiries = noted.inquiries.filter (·.principal = principal)) :
    others.last? principal = noted.last? principal := by
  rw [last?, last?, only, List.find?_filter]
  simp

/-- Calls about others make no inquiries about this one, and keep none from being made. -/
theorem run_filter (lifetime : Nat) (principal : Principal) (calls : List NameCall) :
    (run lifetime (calls.filter (·.concerns principal))).inquiries =
      (run lifetime calls).inquiries.filter (·.principal = principal) := by
  induction calls using List.reverseRecOn with
  | nil => rfl
  | append_singleton calls call ih =>
    rw [List.filter_append, run_concat]
    cases call with
    | clear => exact congrArg NotedCache.inquiries (run_concat ..)
    | name naming other now =>
      by_cases same : other = principal
      · subst same
        obtain ⟨_, made, about, here, there⟩ := (run_faithful lifetime calls).ask_alike
          (run_faithful lifetime (calls.filter (·.concerns other))) (by rw [run_lifetime, run_lifetime])
          (last?_of_filter ih) naming now
        have kept : [NameCall.name naming other now].filter (·.concerns other) = [.name naming other now] :=
          List.filter_eq_self.mpr (by simp [NameCall.concerns])
        have all : made.filter (·.principal = other) = made := List.filter_eq_self.mpr (by simpa using about)
        rw [kept, run_concat, step, step, here, there, List.filter_append, all, ih]
      · rw [List.filter_cons_of_neg (by simpa [NameCall.concerns] using same), List.filter_nil, List.append_nil, ih, step,
          ask_eq]
        split
        · rfl
        · exact (List.filter_cons_of_neg (by simpa using same)).symm

end NotedCache

/-- Whatever the clock reads and whatever is behind the cache, a name is what it was at an inquiry about the same user
or group, made no longer ago than names are good and after the cache was last cleared. A question is passed on exactly
if there is no such inquiry, or the last one is too old. Questions about others, such as the group of the same number,
change nothing in this. -/
theorem NameCache.answers_in_time (lifetime : Nat) (calls : List NameCall) (naming : Naming) (principal : Principal)
    (now : Nat) :
    let before := NotedCache.run lifetime calls
    let answer := (before.ask naming principal now).1
    let after := (before.ask naming principal now).2
    before.cache.nameAt naming principal now = (answer, after.cache) ∧
      (∃ inquiry ∈ after.inquiries, inquiry.principal = principal ∧ inquiry.answer = answer ∧
        now ≤ inquiry.time + lifetime) ∧
      (∀ inquiry ∈ after.inquiries, NotedCache.Origin lifetime (calls ++ [.name naming principal now]) inquiry) ∧
      (after.inquiries = ⟨principal, now, naming principal⟩ :: before.inquiries ↔
        ∀ inquiry ∈ before.last? principal, inquiry.time + lifetime < now) ∧
      (after.inquiries = before.inquiries ↔ ∃ inquiry ∈ before.last? principal, now ≤ inquiry.time + lifetime) ∧
      let alone := NotedCache.run lifetime (calls.filter (·.concerns principal))
      (alone.ask naming principal now).1 = answer ∧
        (alone.ask naming principal now).2.inquiries = after.inquiries.filter (·.principal = principal) := by
  intro before answer after
  have faithful := NotedCache.run_faithful lifetime calls
  have answers := faithful.ask_answers naming principal now
  rw [NotedCache.run_lifetime] at answers
  obtain ⟨recent, passedOn, kept⟩ := answers
  have known : after = NotedCache.run lifetime (calls ++ [.name naming principal now]) :=
    (NotedCache.run_concat lifetime calls (.name naming principal now)).symm
  refine ⟨NotedCache.nameAt_eq .., recent, fun inquiry member => ?_, passedOn, kept, ?_, ?_⟩
  · rw [known] at member
    exact NotedCache.run_origin member
  · exact (faithful.ask_alike (NotedCache.run_faithful lifetime _) (by rw [NotedCache.run_lifetime, NotedCache.run_lifetime])
      (NotedCache.last?_of_filter (NotedCache.run_filter lifetime principal calls)) naming now).1
  · have whole := NotedCache.run_filter lifetime principal (calls ++ [.name naming principal now])
    have about : [NameCall.name naming principal now].filter (·.concerns principal) = [.name naming principal now] :=
      List.filter_eq_self.mpr (by simp [NameCall.concerns])
    rwa [List.filter_append, about, NotedCache.run_concat, ← known] at whole

/-- The group asks for itself what the user has just asked, and the user again when the first answer is too old. In
between the clock runs back, where the answer counts as new. -/
theorem NameCache.answers_in_time_renamed :
    let naming (name : String) : Naming := fun _ => name
    let calls := [.name (naming "a") (.user 1) 100, .name (naming "b") (.group 1) 150, .name (naming "c") (.user 1) 40]
    let before := NotedCache.run 60 calls
    (before.ask (naming "d") (.user 1) 160).1 = "a" ∧ (before.ask (naming "d") (.user 1) 161).1 = "d" ∧
      (∃ inquiry ∈ (before.ask (naming "d") (.user 1) 160).2.inquiries,
        inquiry.principal = .user 1 ∧ inquiry.answer = "a" ∧ 160 ≤ inquiry.time + 60) := by
  intro naming calls before
  have answered : (before.ask (naming "d") (.user 1) 160).1 = "a" := by decide +kernel
  obtain ⟨_, recent, _⟩ := answers_in_time 60 calls (naming "d") (.user 1) 160
  refine ⟨answered, by decide +kernel, ?_⟩
  obtain ⟨inquiry, member, about, answer, time⟩ := recent
  exact ⟨inquiry, member, about, answer.trans answered, time⟩

end BackupAtlas
