import Deadwood.Proofs.Confining
import Deadwood.Proofs.Tables

/-!
# What a resolver remembers

A resolver is asked again and again while files come and go. It answers a request as it answered the
first request for the same specifier and directory, whatever has become of the disk since then. Only
a request that fails is not remembered: the next one for the same looks at the disk anew. `Recalls`
is what each request keeps, and `serve_recalls` says what follows for a whole history of requests.
-/

set_option autoImplicit false

namespace Deadwood.Alias.Resolver

open List

/-- A request to a resolver, with the disk as it is at that moment. -/
structure Request where
  disk : Disk
  directory : String
  specifier : String

/-- What a request is about. -/
def Request.subject (request : Request) : String × String := (request.directory, request.specifier)

variable {start resolver : Resolver} {history : List Request} {request : Request}

/-- What is found for a request without regard to earlier answers. -/
def uncached (resolver : Resolver) (request : Request) : Except Failure (Option String) :=
  resolver.lookUp? request.disk request.specifier request.directory

/-- The answer to a request, and the resolver after it. -/
def serve (resolver : Resolver) (request : Request) : Except Failure (Option String) × Resolver :=
  match resolver.resolve request.disk request.specifier request.directory with
  | .ok (answer, later) => (.ok answer, later)
  | .error e => (.error e, resolver)

/-- The resolver after a history of requests. -/
def after (start : Resolver) (history : List Request) : Resolver :=
  history.foldl (fun resolver request => (resolver.serve request).2) start

/-- What the first request about a subject found that did not fail. -/
def firstAnswer? (start : Resolver) (history : List Request) (subject : String × String) :
    Option (Option String) :=
  history.findSome? fun request =>
    if request.subject = subject then (start.uncached request).toOption else none

/-- The resolver has the answers that a history of requests leaves, each under its own subject. -/
structure Recalls (start : Resolver) (history : List Request) (resolver : Resolver) : Prop where
  uncached : resolver.uncached = start.uncached
  lookup : ∀ subject, resolver.answers.lookup subject = start.firstAnswer? history subject
  nodup : (resolver.answers.map Prod.fst).Nodup

theorem recalls_start (hfresh : start.answers = []) : start.Recalls [] start :=
  ⟨rfl, by simp [hfresh, firstAnswer?], by simp [hfresh]⟩

theorem firstAnswer?_concat (history : List Request) (request : Request)
    (subject : String × String) :
    start.firstAnswer? (history ++ [request]) subject =
      (start.firstAnswer? history subject).or
        (if request.subject = subject then (start.uncached request).toOption else none) := by
  rw [firstAnswer?, findSome?_append, findSome?_singleton]
  rfl

/-- What is found does not depend on what is remembered. -/
theorem uncached_answers (resolver : Resolver)
    (answers : List ((String × String) × Option String)) :
    ({ resolver with answers } : Resolver).uncached = resolver.uncached := by
  have hfirst : ∀ disk files, ({ resolver with answers } : Resolver).firstFile? disk files =
      resolver.firstFile? disk files := by
    intro disk files
    induction files with
    | nil => rfl
    | cons file files ih => simp only [firstFile?, ih]
  funext request
  simp only [uncached, lookUp?, probe?, hfirst]

/-- A request is answered from memory, or it fails, or what is found for it is remembered. -/
theorem serve_cases (resolver : Resolver) (request : Request) :
    (∃ answer, resolver.answers.lookup request.subject = some answer ∧
      resolver.serve request = (.ok answer, resolver)) ∨
    resolver.answers.lookup request.subject = none ∧
      ((∃ e, resolver.uncached request = .error e ∧
        resolver.serve request = (.error e, resolver)) ∨
      ∃ answer, resolver.uncached request = .ok answer ∧
        resolver.serve request = (.ok answer, { resolver with
          answers := resolver.answers ++ [(request.subject, answer)] })) := by
  rw [serve, resolve, answer?, ← Request.subject]
  cases hanswer : resolver.answers.lookup request.subject with
  | some answer => exact .inl ⟨answer, rfl, rfl⟩
  | none =>
    refine .inr ⟨rfl, ?_⟩
    rw [← uncached]
    cases huncached : resolver.uncached request with
    | error e => exact .inl ⟨e, rfl, rfl⟩
    | ok answer => exact .inr ⟨answer, rfl, rfl⟩

/-- What one request gives, and what it leaves. -/
theorem Recalls.serve (h : start.Recalls history resolver) (request : Request) :
    start.Recalls (history ++ [request]) (resolver.serve request).2 ∧ (resolver.serve request).1 =
      ((start.firstAnswer? (history ++ [request]) request.subject).map .ok).getD
        (start.uncached request) := by
  simp only [firstAnswer?_concat, if_pos, ← h.lookup, ← h.uncached]
  rcases resolver.serve_cases request with ⟨answer, hanswer, hserve⟩ |
    ⟨hnone, ⟨e, hfails, hserve⟩ | ⟨answer, hfinds, hserve⟩⟩
  · rw [hserve]
    refine ⟨⟨h.uncached, fun subject => ?_, h.nodup⟩, by simp [hanswer]⟩
    rw [firstAnswer?_concat, ← h.lookup]
    split
    · rename_i heq
      simp [← heq, hanswer]
    · rw [Option.or_none]
  · rw [hserve]
    refine ⟨⟨h.uncached, fun subject => ?_, h.nodup⟩, by simp [hnone, hfails, Except.toOption]⟩
    rw [firstAnswer?_concat, ← h.lookup, ← h.uncached, hfails]
    simp [Except.toOption]
  · rw [hserve]
    refine ⟨⟨(resolver.uncached_answers _).trans h.uncached, fun subject => ?_, ?_⟩,
      by simp [hnone, hfinds, Except.toOption]⟩
    · rw [firstAnswer?_concat, ← h.lookup, ← h.uncached, hfinds, lookup_append, lookup_cons]
      rcases eq_or_ne request.subject subject with rfl | hne
      · simp [Except.toOption]
      · simp [hne, beq_false_of_ne hne.symm]
    · rw [map_append, map_singleton, ← concat_eq_append, nodup_concat]
      refine ⟨fun hmem => ?_, h.nodup⟩
      obtain ⟨pair, hpair, heq⟩ := mem_map.1 hmem
      exact absurd (lookup_eq_none_iff.1 hnone pair hpair) (by simp [heq])

/-- There are as many answers as subjects that something was found for. -/
theorem Recalls.length_eq (h : start.Recalls history resolver) : resolver.answers.length =
      ((history.filter fun earlier => (start.uncached earlier).toOption.isSome).map
        Request.subject).eraseDups.length := by
  rw [← length_map Prod.fst]
  refine Perm.length_eq
    ((perm_ext_iff_of_nodup h.nodup (nodup_eraseDups _)).2 fun subject => ?_)
  have hlookup : subject ∈ resolver.answers.map Prod.fst ↔
      (resolver.answers.lookup subject).isSome := by
    simp
  rw [hlookup, h.lookup, firstAnswer?, findSome?_isSome_iff, mem_eraseDups, mem_map]
  refine exists_congr fun earlier => ?_
  rw [mem_filter, and_assoc]
  split <;> simp [*]

theorem recalls_after (hfresh : start.answers = []) (history : List Request) :
    start.Recalls history (start.after history) := by
  induction history using reverseRecOn with
  | nil => exact recalls_start hfresh
  | append_singleton history request ih =>
    rw [after, foldl_concat]
    exact (ih.serve request).1

/-- A new resolver that has served a history of requests, each on the disk of its moment, answers
the next one as the first request for the same specifier and directory that did not fail was, or
would have been, answered by looking at the disk; if there was none, it looks at the disk now. It
remembers one answer for each specifier and directory that a request was answered for. On a disk
that does not change, every answer is what is found there. -/
theorem serve_recalls (hfresh : start.answers = []) (history : List Request) (request : Request) :
    ((start.after history).serve request).1 =
      ((start.firstAnswer? (history ++ [request]) request.subject).map .ok).getD
        (start.uncached request) ∧ (start.after history).answers.length =
      ((history.filter fun earlier => (start.uncached earlier).toOption.isSome).map
        Request.subject).eraseDups.length ∧ ((∀ earlier ∈ history, earlier.disk = request.disk) →
      ((start.after history).serve request).1 = start.uncached request) := by
  have hrecalls := recalls_after hfresh history
  have hanswer := (hrecalls.serve request).2
  refine ⟨hanswer, hrecalls.length_eq, fun hdisk => ?_⟩
  rw [hanswer]
  cases hfirst : start.firstAnswer? (history ++ [request]) request.subject with
  | none => rfl
  | some answer =>
    obtain ⟨earlier, hmem, hfound⟩ := exists_of_findSome?_eq_some hfirst
    have hsame : earlier.disk = request.disk := by
      rcases mem_append.1 hmem with hmem | hmem
      · exact hdisk earlier hmem
      · rw [mem_singleton.1 hmem]
    split at hfound
    · rename_i hsubject
      obtain ⟨hdirectory, hspecifier⟩ := Prod.mk.inj hsubject
      rw [uncached, hsame, hdirectory, hspecifier, ← uncached] at hfound
      cases huncached : start.uncached request <;> simp_all [Except.toOption]
    · cases hfound

/-- A resolver that has not been asked yet. -/
def newcomer : Resolver where
  root := ⟨1, ["proj"]⟩

/-- The project of `shelf` without its files. -/
def bareShelf : Disk where
  nodes := [(["proj"], .directory)]

/-- A file is found again after it is gone. -/
theorem serve_recalls_gone :
    ((newcomer.after [⟨shelf, "lib", "./x"⟩]).serve ⟨bareShelf, "lib", "./x"⟩).1 =
      .ok (some "lib/x.ts") ∧ (newcomer.uncached ⟨bareShelf, "lib", "./x"⟩).toOption = some none ∧
    (newcomer.after [⟨shelf, "lib", "./x"⟩]).answers.length = 1 := by
  obtain ⟨hanswer, hlength, -⟩ :=
    @serve_recalls newcomer rfl [⟨shelf, "lib", "./x"⟩] ⟨bareShelf, "lib", "./x"⟩
  have hfirst : newcomer.firstAnswer? ([⟨shelf, "lib", "./x"⟩] ++ [⟨bareShelf, "lib", "./x"⟩])
      ("lib", "./x") = some (some "lib/x.ts") := by decide +kernel
  refine ⟨?_, by decide +kernel, hlength.trans (by decide +kernel)⟩
  rw [hanswer, Request.subject, hfirst]
  rfl

/-- A request that fails is not remembered: a rule whose target is no text fails each time anew. -/
theorem failure_is_forgotten : ∃ (start : Resolver) (request : Request), start.answers = [] ∧
      (start.uncached request).toOption = none ∧ (start.after [request]).answers.length = 0 ∧
      ([request].map Request.subject).eraseDups.length = 1 :=
  ⟨{ newcomer with table := ⟨"", [⟨"~*", .nat 5⟩], none⟩ }, ⟨shelf, "", "~x"⟩, rfl,
    by decide +kernel, by decide +kernel, by decide +kernel⟩

end Deadwood.Alias.Resolver
