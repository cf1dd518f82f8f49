import MqttExporter.Base.OrderedMap
import MqttExporter.Base.OrderedMultimap
import MqttExporter.Base.Decimal
import MqttExporter.Base.Double
import MqttExporter.Base.FixedPoint
import MqttExporter.Base.Replace
import MqttExporter.Base.Occurrences
import MqttExporter.Base.Text
import MqttExporter.Base.Loop
import MqttExporter.Base.Transition
import MqttExporter.Base.History
import MqttExporter.Base.Answers
import MqttExporter.Base.Links
import MqttExporter.Base.WeakView
import MqttExporter.Base.References
import MqttExporter.Base.Mutexes
import MqttExporter.Base.MetricText
import MqttExporter.Configuration
import MqttExporter.Metric
import MqttExporter.MetricFamily
import MqttExporter.VectorIterator
import MqttExporter.FamilyRun
import MqttExporter.SharedFamily
import MqttExporter.ConcurrentFamily
import MqttExporter.ConcurrentScrape
import MqttExporter.ConcurrentCounts
import MqttExporter.Atomicity
import MqttExporter.Series
import MqttExporter.CounterRun
import MqttExporter.Expiry
import MqttExporter.GaugeRun
import MqttExporter.HistogramCounts
import MqttExporter.BucketLabels
import MqttExporter.InvalidSamples
import MqttExporter.HistogramScrape
import MqttExporter.ReplaceAll
import MqttExporter.Template
import MqttExporter.Placeholders
import MqttExporter.Exposition
import MqttExporter.Numbers
import MqttExporter.Publish
import MqttExporter.PublishOutcome
import MqttExporter.MosquittoClient
import MqttExporter.Signals
import MqttExporter.CachedSignal
import MqttExporter.Subscriptions
import MqttExporter.LazySubscriptions
import MqttExporter.Connection
import MqttExporter.Shutdown
import MqttExporter.App
import MqttExporter.Dispatch
import MqttExporter.Log
import MqttExporter.Registration
import MqttExporter.Failure
import MqttExporter.SeriesLabels
import MqttExporter.Startup
import MqttExporter.Construction
import MqttExporter.Scrapes
import MqttExporter.Response
import MqttExporter.Locks
import MqttExporter.Exporter
import MqttExporter.Replies
import MqttExporter.LastValues
import MqttExporter.Reading
import MqttExporter.Delivered
import MqttExporter.Sequential
import MqttExporter.Answering
import MqttExporter.Logger
