import SschedSimulator.Foundation.Outcome
import SschedSimulator.Foundation.Bitset
import SschedSimulator.Foundation.Table
import SschedSimulator.Foundation.Arrangement
import SschedSimulator.Foundation.MaxTree
import SschedSimulator.Foundation.PartialMatching
import SschedSimulator.Foundation.Ranking
import SschedSimulator.Foundation.SumTree
import SschedSimulator.Saber.Utils
import SschedSimulator.Saber.ProportionalSearch
import SschedSimulator.Saber.Stats
import SschedSimulator.Scheduler.Reservations
import SschedSimulator.Switch.IQSwitch
import SschedSimulator.Scheduler.CircularGenerator
import SschedSimulator.Scheduler.Booking
import SschedSimulator.Scheduler.QpSampler
import SschedSimulator.Scheduler.UniformSampling
import SschedSimulator.Scheduler.PriorityQueue
import SschedSimulator.Scheduler.Proposals
import SschedSimulator.Switch.Switching
import SschedSimulator.Foundation.Fifo
import SschedSimulator.Switch.VoqDiscipline
import SschedSimulator.Switch.Departures
import SschedSimulator.Switch.Refinement
import SschedSimulator.Simulator.Simulator
import SschedSimulator.Scheduler.SlidingWindow.Basic
import SschedSimulator.Scheduler.SlidingWindow.Invariant
import SschedSimulator.Scheduler.SlidingWindow.FirstFit
import SschedSimulator.Scheduler.SlidingWindow.Delivery
import SschedSimulator.Scheduler.SbQps.Fixed
import SschedSimulator.Scheduler.TreeSampling
import SschedSimulator.Scheduler.ProportionalSampling
import SschedSimulator.Scheduler.SbQps.Base
import SschedSimulator.Scheduler.SbQps.Batch
import SschedSimulator.Scheduler.SbQps.Oblivious
import SschedSimulator.Scheduler.Qps
import SschedSimulator.Scheduler.QpsInvariant
import SschedSimulator.Scheduler.SbQps.Basic
import SschedSimulator.Scheduler.SbQps.Availability
import SschedSimulator.Scheduler.SbQps.MultiIteration
import SschedSimulator.Foundation.FirstFit
import SschedSimulator.Scheduler.SbQps.AvailabilityAware
import SschedSimulator.Scheduler.SbQps.ExactCounters
import SschedSimulator.Scheduler.SbQps.OneFrameEach
import SschedSimulator.Scheduler.SbQps.CounterDrift
import SschedSimulator.Scheduler.SbQps.Agreement
import SschedSimulator.Scheduler.SbQps.LongestNow
import SschedSimulator.Scheduler.SbQps.MultiAccept
import SschedSimulator.Scheduler.SbQps.MultiAcceptSafety
import SschedSimulator.Scheduler.SbQps.Conditional
import SschedSimulator.Scheduler.SbQps.ConditionalInvariant
import SschedSimulator.Foundation.RoundRobin
import SschedSimulator.Scheduler.Islip
import SschedSimulator.Scheduler.IslipProgress
import SschedSimulator.Foundation.IndexedSet
import SschedSimulator.Scheduler.RandomizedMaximal
import SschedSimulator.Lemon.ListGraph
import SschedSimulator.Lemon.MaxMatching
import SschedSimulator.Matching.AvailabilityTemplate
import SschedSimulator.Matching.MaxPropose
import SschedSimulator.Matching.DoubleMax
import SschedSimulator.Matching.SbQpsFixed
import SschedSimulator.Matching.SbQpsSelection
import SschedSimulator.Matching.ParallelScheduler
import SschedSimulator.Scheduler.MaxWeight
import SschedSimulator.Foundation.Coloring
import SschedSimulator.Scheduler.EdgeColoring
import SschedSimulator.Scheduler.EdgeColoringFrames
import SschedSimulator.Switch.ReplaceScheduler
import SschedSimulator.Scheduler.RrSampler
import SschedSimulator.Scheduler.SlidingWindow.RoundRobin
import SschedSimulator.Scheduler.SlidingWindow.Rotation
import SschedSimulator.Scheduler.SlidingWindow.BestFit
import SschedSimulator.Scheduler.SlidingWindow.BestFitGraph
import SschedSimulator.Scheduler.SlidingWindow.BestFitMaximum
import SschedSimulator.Scheduler.Factory
import SschedSimulator.Foundation.Lockstep
import SschedSimulator.Scheduler.Reset
import SschedSimulator.Foundation.Checked
import SschedSimulator.Scheduler.Sized.Trees
import SschedSimulator.Scheduler.Sized.Tables
import SschedSimulator.Scheduler.Sized.SlidingWindow
import SschedSimulator.Scheduler.Sized.SmallBatch
import SschedSimulator.Scheduler.Sized.Conditional
import SschedSimulator.Scheduler.MaxWeightSquare
import SschedSimulator.Scheduler.Sized.Unbatched
import SschedSimulator.Scheduler.Sized.Factory
import SschedSimulator.Scheduler.BitmapRange
import SschedSimulator.Scheduler.IndexRange
import SschedSimulator.Scheduler.SamplerTermination
import SschedSimulator.Scheduler.QpsAccept
import SschedSimulator.Scheduler.IslipConvergence
import SschedSimulator.Scheduler.MatchWith
import SschedSimulator.Simulator.Buffers
import SschedSimulator.Simulator.StoppingRule
import SschedSimulator.Foundation.PointerMap
import SschedSimulator.Simulator.Instruments
import SschedSimulator.Foundation.RandomPermutation
import SschedSimulator.Foundation.DrawStream
import SschedSimulator.Foundation.TwoState
import SschedSimulator.TrafficGenerator.CirculantPatterns
import SschedSimulator.TrafficGenerator.OnOffInjection
import SschedSimulator.Scheduler.QpsConvergence
import SschedSimulator.Foundation.QuadraticDrift
import SschedSimulator.Foundation.Crossbar
import SschedSimulator.Switch.Stability
import SschedSimulator.Scheduler.Throughput
import SschedSimulator.Scheduler.Draining
import SschedSimulator.Scheduler.MatchSizes
import SschedSimulator.Scheduler.MaxWeightStarvation
import SschedSimulator.Foundation.TokenRing
import SschedSimulator.Scheduler.IslipSaturation
import SschedSimulator.Scheduler.IslipStarvation
import SschedSimulator.Simulator.LittlesLaw
import SschedSimulator.Simulator.SwitchClasses
import SschedSimulator.Simulator.Sweep
import SschedSimulator.Simulator.SweepSafety
import SschedSimulator.Scheduler.Extensional
import SschedSimulator.Simulator.Renewal
import SschedSimulator.Simulator.Independence
import SschedSimulator.Foundation.IntegerText
import SschedSimulator.Matching.MatrixText
import SschedSimulator.Matching.EdgeColoring
import SschedSimulator.Matching.MaximumWeightMatching
import SschedSimulator.Matching.MatchingMain
